import ExpiringCache.Proofs.Eviction
import ExpiringCache.Proofs.Stretches

/-!
# The target of an eviction

An attempt to evict an insertion takes out that insertion or nothing, whatever its callbacks do
meanwhile; what else leaves during the attempt leaves by the work of callbacks. A sweep attempts the
insertions it listed in the beginning and no others, passes over those that have left or that are
being decided about when their turn comes, and counts the evictions it made itself.
-/

namespace ExpiringCache

variable {ν η μ α β : Type}

def Fate.isEvicted : Fate ν → Bool
  | .evicted => true
  | _ => false

/-- Work at this depth evicted the insertion `g`. -/
def Line.evictsAt (depth g : Nat) (l : Line ν η) : Bool := l.expires g && l.calls.length == depth

theorem Line.leaves_of_expires {l : Line ν η} {g : Nat} (h : l.expires g = true) :
    l.leaves g = true := by
  obtain ⟨record, now, calls, cache⟩ := l
  cases record with
  | left g' key value exit => cases exit <;> first | exact h | cases h
  | _ => cases h

theorem Line.leaves_of_consults {l : Line ν η} (h : l.consults = true) (g : Nat) :
    l.leaves g = false := by
  obtain ⟨record, now, calls, cache⟩ := l
  cases record <;> first | rfl | cases h

/-- What work inside `calls` writes itself takes out no insertions but its own, and these by expiry;
nor does it begin rounds about others. -/
structure Aimed (own : Key → Nat → Prop) (calls : List (Activity ν η)) (seg : List (Line ν η)) :
    Prop where
  inside : ∀ l ∈ seg, calls <:+ l.calls
  departures : ∀ l ∈ seg, l.calls = calls → ∀ g key value exit,
    l.record = .left g key value exit → own key g ∧ exit = .expired
  rounds : ∀ l ∈ seg, ∀ key g, .deciding key g :: calls <:+ l.calls → own key g

namespace Aimed

variable {own : Key → Nat → Prop} {calls : List (Activity ν η)} {seg old new : List (Line ν η)}

theorem nil : Aimed own calls ([] : List (Line ν η)) := by
  refine ⟨?_, ?_, ?_⟩ <;> intro l hl <;> cases hl

theorem append (h : Aimed own calls old) (k : Aimed own calls new) :
    Aimed own calls (new ++ old) where
  inside l hl := (List.mem_append.mp hl).elim (k.inside l) (h.inside l)
  departures l hl := (List.mem_append.mp hl).elim (k.departures l) (h.departures l)
  rounds l hl := (List.mem_append.mp hl).elim (k.rounds l) (h.rounds l)

theorem mono {wider : Key → Nat → Prop} (h : Aimed own calls seg)
    (hw : ∀ key g, own key g → wider key g) : Aimed wider calls seg where
  inside := h.inside
  departures l hl hc g key value exit hr :=
    ⟨hw key g (h.departures l hl hc g key value exit hr).1,
      (h.departures l hl hc g key value exit hr).2⟩
  rounds l hl key g hs := hw key g (h.rounds l hl key g hs)

theorem not_deciding {key : Key} {g : Nat} (h : Activity.deciding key g :: calls <:+ calls) :
    False := by
  have hle := h.length_le
  rw [List.length_cons] at hle
  omega

/-- Lines of the work itself that are about no departure. -/
theorem own_lines (h : ∀ l ∈ seg, l.calls = calls ∧ ∀ g, l.leaves g = false) :
    Aimed own calls seg where
  inside l hl := ⟨[], (h l hl).1.symm⟩
  departures l hl _ g key value exit hr := by
    have hno := (h l hl).2 g
    rw [Line.leaves_iff.mpr ⟨key, value, exit, hr⟩] at hno
    cases hno
  rounds l hl key g hs := by
    rw [(h l hl).1] at hs
    exact (not_deciding hs).elim

theorem eviction {l : Line ν η} {key : Key} {g : Nat} {value : ν} (hc : l.calls = calls)
    (hr : l.record = .left g key value .expired) (ho : own key g) : Aimed own calls [l] := by
  refine ⟨?_, ?_, ?_⟩ <;> intro m hm <;> rw [List.mem_singleton.mp hm]
  · exact ⟨[], hc.symm⟩
  · intro _ g' key' value' exit' hr'
    rw [hr] at hr'
    cases hr'
    exact ⟨ho, rfl⟩
  · intro key' g' hs
    rw [hc] at hs
    exact (not_deciding hs).elim

/-- Lines of work that is done inside `a`. -/
theorem nested {a : Activity ν η} (h : ∀ l ∈ seg, a :: calls <:+ l.calls)
    (ha : ∀ key g, a = .deciding key g → own key g) : Aimed own calls seg where
  inside l hl := (List.suffix_cons _ _).trans (h l hl)
  departures l hl hc := by
    have hle := (h l hl).length_le
    rw [hc, List.length_cons] at hle
    omega
  rounds l hl key g hs := by
    obtain ⟨inner, hinner⟩ := hs
    obtain ⟨inner', hinner'⟩ := h l hl
    have heq := List.append_inj_right' (hinner'.trans hinner.symm) rfl
    exact ha key g (List.cons.inj heq).1

theorem of_evictsAt (h : Aimed own calls seg) {g : Nat}
    (he : seg.any (·.evictsAt calls.length g) = true) : ∃ key, own key g := by
  obtain ⟨l, hl, he⟩ := List.any_eq_true.mp he
  simp only [Line.evictsAt, Bool.and_eq_true, beq_iff_eq] at he
  obtain ⟨key, value, hr⟩ : ∃ key value, l.record = .left g key value .expired := by
    obtain ⟨record, now, here, cache⟩ := l
    cases record with
    | left g' key value exit =>
      cases exit with
      | expired =>
        have hg : g' = g := by simpa [Line.expires] using he.1
        exact ⟨key, value, by rw [hg]⟩
      | _ => simp [Line.expires] at he
    | _ => simp [Line.expires] at he
  obtain ⟨outer, houter⟩ := h.inside l hl
  have hnil : outer = [] := by
    have hlen := congrArg List.length houter
    rw [List.length_append, he.2] at hlen
    exact List.length_eq_zero_iff.mp (by omega)
  rw [hnil] at houter
  exact ⟨key, (h.departures l hl houter.symm g key value .expired hr).1⟩

/-- No candidate is hit in the turn of another. -/
theorem countP_hits_cons {c : Key × Nat} {cs : List (Key × Nat)}
    (h : Aimed (fun k g => k = c.1 ∧ g = c.2) calls old)
    (k : Aimed (fun k g => (k, g) ∈ cs) calls new) (hc : c.2 ∉ cs.map Prod.snd) :
    ((c :: cs).countP fun d => (new ++ old).any (·.evictsAt calls.length d.2)) =
      (old.any (·.evictsAt calls.length c.2)).toNat +
        cs.countP fun d => new.any (·.evictsAt calls.length d.2) := by
  have hfirst : new.any (·.evictsAt calls.length c.2) = false := by
    refine Bool.eq_false_iff.mpr fun ht => hc ?_
    obtain ⟨key, hk⟩ := k.of_evictsAt ht
    exact List.mem_map.mpr ⟨(key, c.2), hk, rfl⟩
  have hothers : ∀ d ∈ cs, (new ++ old).any (·.evictsAt calls.length d.2) =
      new.any (·.evictsAt calls.length d.2) := by
    intro d hd
    have hold : old.any (·.evictsAt calls.length d.2) = false := by
      refine Bool.eq_false_iff.mpr fun ht => hc ?_
      obtain ⟨key, -, hg⟩ := h.of_evictsAt ht
      exact List.mem_map.mpr ⟨d, hd, hg⟩
    rw [List.any_append, hold, Bool.or_false]
  have hrest := List.countP_congr fun d hd => Bool.eq_iff_iff.mp (hothers d hd)
  rw [List.countP_cons, hrest, List.any_append, hfirst, Bool.false_or, Nat.add_comm]
  cases old.any (·.evictsAt calls.length c.2) <;> rfl

end Aimed

/-- Work from `w` to `w'` that concerns the insertion `g` of `key` only, and evicts it or not. -/
structure Attempt (key : Key) (g : Nat) (hit : Bool) (w w' : World ν η μ) : Prop where
  calls : w'.calls = w.calls
  lines : ∃ seg, w'.journal = seg ++ w.journal ∧ Aimed (fun k h => k = key ∧ h = g) w.calls seg ∧
    seg.any (·.evictsAt w.calls.length g) = hit

namespace Attempt

variable {key : Key} {g : Nat} {hit hit' : Bool} {w v u : World ν η μ}

theorem refl : Attempt key g false w w := ⟨rfl, [], rfl, .nil, rfl⟩

theorem trans (h : Attempt key g hit w v) (k : Attempt key g hit' v u) :
    Attempt key g (hit || hit') w u := by
  obtain ⟨old, hold, ho, hoh⟩ := h.lines
  obtain ⟨new, hnew, hn, hnh⟩ := k.lines
  rw [h.calls] at hn hnh
  refine ⟨k.calls.trans h.calls, new ++ old, ?_, ho.append hn, ?_⟩
  · rw [hnew, hold, List.append_assoc]
  · rw [List.any_append, hoh, hnh, Bool.or_comm]

theorem miss (h : Attempt key g false w v) (k : Attempt key g hit v u) : Attempt key g hit w u := by
  have hall := h.trans k
  rwa [Bool.false_or] at hall

theorem hits (h : Attempt key g hit w v) (k : Attempt key g false v u) : Attempt key g hit w u := by
  have hall := h.trans k
  rwa [Bool.or_false] at hall

theorem quiet (seg : List (Line ν η)) (hc : v.calls = w.calls) (hj : v.journal = seg ++ w.journal)
    (h : ∀ l ∈ seg, l.calls = w.calls ∧ ∀ g, l.leaves g = false) : Attempt key g false w v := by
  refine ⟨hc, seg, hj, .own_lines h, List.any_eq_false.mpr ?_⟩
  intro l hl ht
  simp only [Line.evictsAt, Bool.and_eq_true] at ht
  have hleft := Line.leaves_of_expires ht.1
  rw [(h l hl).2 g] at hleft
  cases hleft

theorem note {r : Record ν η} (h : ∀ g, (w.line r).leaves g = false) :
    Attempt key g false w (w.note r) :=
  .quiet [w.line r] rfl rfl fun l hl => by rw [List.mem_singleton.mp hl]; exact ⟨rfl, h⟩

theorem asks {policy : Policy η} {answer : Option Bool} (h : w.Asks policy answer v) :
    Attempt key g false w v := by
  obtain ⟨asked, hj, hasked⟩ := h.lines
  refine .quiet _ h.calls hj ?_
  exact fun l hl => ⟨(hasked l hl).2, Line.leaves_of_consults (hasked l hl).1⟩

theorem nested {a : Activity ν η} {w₀ v₀ : World ν η μ} (h : Stretch w₀ v₀)
    (hc : w₀.calls = a :: w.calls) (hj : w₀.journal = w.journal) (hvc : v.calls = v₀.calls.tail)
    (hvj : v.journal = v₀.journal) (ha : ∀ k i, a = .deciding k i → k = key ∧ i = g) :
    Attempt key g false w v := by
  obtain ⟨seg, hseg, hin⟩ := h.segment
  rw [hc] at hin
  refine ⟨?_, seg, ?_, .nested hin ha, List.any_eq_false.mpr ?_⟩
  · rw [hvc, h.calls, hc]
    rfl
  · rw [hvj, hseg, hj]
  · intro l hl ht
    have hle := (hin l hl).length_le
    simp only [Line.evictsAt, Bool.and_eq_true, beq_iff_eq] at ht
    rw [ht.2, List.length_cons] at hle
    omega

end Attempt

theorem World.Examines.attempt {w v : World ν η μ} {key : Key} {g : Nat} {answer : Option Bool}
    (h : w.Examines key g answer v) : Attempt key g false w v := by
  obtain ⟨asked, hj, hasked⟩ := h.lines
  exact .quiet _ h.calls hj fun l hl => ⟨(hasked l hl).2, Line.leaves_of_consults (hasked l hl).1⟩

theorem World.Commits.attempt {w v : World ν η μ} {key : Key} {g : Nat} {u : Upshot}
    (h : w.Commits key g u v) : Attempt key g (u == .evicted) w v := by
  cases h with
  | stale hx => exact hx.attempt
  | unwound hx => exact hx.attempt
  | @evicted v e he hx =>
    refine hx.attempt.miss ⟨rfl, [_], rfl, .eviction rfl rfl ⟨rfl, rfl⟩, ?_⟩
    simp [Line.evictsAt, Line.expires]

namespace Act

variable {invoke : Invoke ν η μ} {key : Key} {g : Nat}

theorem release_attempts (hi : ∀ c, (invoke c).Stretches) (e : Entry ν η) (w : World ν η μ) :
    (release invoke key e).Ends w fun _ w' => Attempt key g false w w' := by
  unfold release
  refine ends_cache.mpr ?_
  cases w.cache.settings.release with
  | none => exact ends_pure.mpr .refl
  | some handler =>
    refine ends_bracket ((hi _ (w.push (.releasing key e.generation))).mono ?_)
    intro _ v hs
    refine Attempt.nested (v := v.pop) hs rfl rfl rfl rfl ?_
    intro k i h
    cases h

theorem disposeEvicted_attempts (hi : ∀ c, (invoke c).Stretches) (gone : Entry ν η)
    (w : World ν η μ) :
    (disposeEvicted invoke key gone).Ends w fun _ w' => Attempt key g false w w' := by
  unfold disposeEvicted
  refine ends_cache.mpr (Ends.bind (P := fun _ v => Attempt key g false w v) ?_ ?_ fun _ _ h => h)
  · refine ends_bracket ((tellExpired_stretches hi _ _ _ _ (w.push _)).mono ?_)
    intro _ v hs
    refine Attempt.nested (v := v.pop) hs rfl rfl rfl rfl ?_
    intro k i h
    cases h
  · intro final v h1
    have h2 := h1.miss (.note (r := .disposed gone.generation key final) fun _ => rfl)
    refine ends_note.mpr ?_
    split
    · exact (release_attempts hi gone _).mono fun _ _ h3 => h2.miss h3
    · exact ends_pure.mpr h2

/-- An attempt to evict an insertion concerns this insertion only and says whether it evicted it. -/
theorem expire_attempts (hi : ∀ c, (invoke c).Stretches) (host : Host ν η μ) (w : World ν η μ) :
    (expire host invoke key g).Ends w fun r w' => ∃ hit, Attempt key g hit w w' ∧
      ∀ fate, r = .ok fate → hit = fate.isEvicted := by
  have failed : ∀ {hit : Bool} {e : Halt} {v : World ν η μ}, Attempt key g hit w v →
      ∃ hit, Attempt key g hit w v ∧
        ∀ fate : Fate ν, Except.error e = Except.ok fate → hit = fate.isEvicted :=
    fun h => ⟨_, h, fun _ he => by cases he⟩
  have came : ∀ {hit : Bool} {fate : Fate ν} {v : World ν η μ}, Attempt key g hit w v →
      hit = fate.isEvicted → (Pure.pure fate : Act ν η μ (Fate ν)).Ends v fun r v' =>
        ∃ hit, Attempt key g hit w v' ∧ ∀ fate, r = .ok fate → hit = fate.isEvicted := by
    intro hit fate v h hf
    refine ends_pure.mpr ⟨hit, h, ?_⟩
    intro fate' he
    cases he
    exact hf
  unfold expire
  refine (candidate?_asks host key g w).bind ?_ ?_
  · rintro found w1 ⟨hw1, hfound⟩
    have h1 : Attempt key g false w w1 := by
      rcases hw1 with rfl | ⟨policy, ha⟩
      · exact .refl
      · exact .asks ha
    match found, hfound with
    | none, _ => exact came h1 rfl
    | some (e, policy), _ =>
      refine Ends.bind (P := fun _ v => Attempt key g false w v) ?_ ?_ fun _ _ h => failed h
      · refine ends_bracket ((askExpiring_stretches hi g key e.value policy
          ((w1.change (.mark true key g)).push (.deciding key g))).mono ?_)
        intro _ v hs
        refine h1.miss
          (Attempt.nested (v := (v.change (.mark false key g)).pop) hs rfl rfl rfl rfl ?_)
        intro k i h
        cases h
        exact ⟨rfl, rfl⟩
      · intro answers w2 h2
        have h3 := h2.miss (.note (r := .decided g key e.value answers) fun _ => rfl)
        refine ends_note.mpr ?_
        split
        · exact ends_change.mpr (came (h3.miss (.quiet [] rfl rfl (by simp))) rfl)
        · refine (commit_commits host key g _).bind ?_ ?_
          · rintro r w3 ⟨hc, -⟩
            have h4 := h3.miss hc.attempt
            cases r with
            | none => exact came h4 rfl
            | some gone =>
              refine (disposeEvicted_attempts (g := g) hi gone w3).bind ?_ ?_
              · exact fun _ w4 h5 => came (h4.hits h5) rfl
              · exact fun _ w4 h5 => failed (h4.hits h5)
          · rintro error w3 ⟨hc, -⟩
            exact failed (h3.miss hc.attempt)
  · rintro error w1 ⟨hw1, -⟩
    rcases hw1 with rfl | ⟨policy, ha⟩
    · exact failed .refl
    · exact failed (.asks ha)

end Act

/-! ## Sweeps -/

/-- From `w` to `v` predicates were asked and nothing else was done. -/
structure Questioned (w v : World ν η μ) : Prop where
  cache : v.cache = w.cache
  calls : v.calls = w.calls
  lines : ∃ seg, v.journal = seg ++ w.journal ∧ ∀ l ∈ seg, l.consults = true ∧ l.calls = w.calls

namespace Questioned

variable {w v u : World ν η μ}

theorem refl (w : World ν η μ) : Questioned w w := ⟨rfl, rfl, [], rfl, by simp⟩

theorem trans (h : Questioned w v) (k : Questioned v u) : Questioned w u :=
  ⟨k.cache.trans h.cache, k.calls.trans h.calls, written_trans h.lines (h.calls ▸ k.lines)⟩

theorem asks {policy : Policy η} {answer : Option Bool} (h : w.Asks policy answer v) :
    Questioned w v := ⟨h.cache, h.calls, h.lines⟩

end Questioned

namespace Act

variable {invoke : Invoke ν η μ} {key : Key} {g : Nat}

theorem expired_questions (host : Host ν η μ) (e : Entry ν η) (w : World ν η μ) :
    (expired host e).Ends w fun _ v => Questioned w v := by
  cases hp : e.policy with
  | none =>
    refine (expired_timeless host hp w).mono ?_
    rintro _ _ ⟨-, rfl⟩
    exact .refl _
  | some policy => exact (expired_asks host hp w).mono fun _ _ ha => .asks ha

/-- A filter whose test asks predicates keeps some of the items, in their order, and only such that
the test let through. -/
theorem filterM_questions {p : α → Act ν η μ Bool} (keep : α → Prop)
    (hp : ∀ x w, (p x).Ends w fun r v => Questioned w v ∧ (r = .ok true → keep x)) (xs : List α)
    (w : World ν η μ) : (xs.filterM p).Ends w fun r v => Questioned w v ∧
      ∀ ys, r = .ok ys → ys.Sublist xs ∧ ∀ y ∈ ys, keep y := by
  have loop : ∀ (xs acc : List α) (w : World ν η μ), (xs.filterAuxM p acc).Ends w fun r v =>
      Questioned w v ∧ ∀ ys, r = .ok ys → ∃ kept : List α, ys = kept.reverse ++ acc ∧
        kept.Sublist xs ∧ ∀ y ∈ kept, keep y := by
    intro xs
    induction xs with
    | nil =>
      intro acc w
      refine ends_pure.mpr ⟨.refl w, ?_⟩
      intro ys hys
      cases hys
      exact ⟨[], rfl, .slnil, by simp⟩
    | cons x xs ih =>
      intro acc w
      refine (hp x w).bind ?_ ?_
      · rintro found v ⟨hv, hkeep⟩
        refine (ih (cond found (x :: acc) acc) v).mono ?_
        rintro r u ⟨hu, hrest⟩
        refine ⟨hv.trans hu, ?_⟩
        intro ys hys
        obtain ⟨kept, rfl, hsub, hall⟩ := hrest ys hys
        cases found with
        | false => exact ⟨kept, rfl, hsub.cons x, hall⟩
        | true =>
          refine ⟨x :: kept, by simp, hsub.cons_cons x, ?_⟩
          intro y hy
          rcases List.mem_cons.mp hy with rfl | hy
          · exact hkeep rfl
          · exact hall y hy
      · rintro e v ⟨hv, -⟩
        exact ⟨hv, fun ys h => by cases h⟩
  refine (loop xs [] w).bind ?_ ?_
  · rintro ys v ⟨hv, hys⟩
    refine ends_pure.mpr ⟨hv, ?_⟩
    intro zs hzs
    cases hzs
    obtain ⟨kept, rfl, hsub, hall⟩ := hys ys rfl
    rw [List.append_nil, List.reverse_reverse]
    exact ⟨hsub, hall⟩
  · rintro e v ⟨hv, -⟩
    exact ⟨hv, fun ys h => by cases h⟩

/-- A sweep lists insertions that are stored and not marked, each once. -/
theorem candidates_questions (host : Host ν η μ) (w : World ν η μ) :
    (candidates host).Ends w fun r v => Questioned w v ∧ ∀ cs, r = .ok cs →
      ∃ rows : List (Key × Entry ν η), rows.Sublist w.cache.entries.rows ∧
        (∀ r ∈ rows, r.2.pending = false) ∧ cs = rows.map fun r => (r.1, r.2.generation) := by
  unfold candidates
  refine ends_cache.mpr ((filterM_questions (fun r : Key × Entry ν η =>
    r.2.pending = false) ?_ _ w).bind ?_ ?_)
  · intro r v
    split
    · exact ends_pure.mpr ⟨.refl v, fun h => by cases h⟩
    · rename_i hp
      exact (expired_questions host r.2 v).mono fun _ _ hq => ⟨hq, fun _ => by simpa using hp⟩
  · rintro rows v ⟨hv, hrows⟩
    obtain ⟨hsub, hall⟩ := hrows rows rfl
    refine ends_pure.mpr ⟨hv, ?_⟩
    intro cs h
    cases h
    exact ⟨rows, hsub, hall, rfl⟩
  · rintro e v ⟨hv, -⟩
    exact ⟨hv, fun cs h => by cases h⟩

def evictNext (host : Host ν η μ) (invoke : Invoke ν η μ) (n : Nat) (c : Key × Nat) :
    Act ν η μ Nat := do
  match ← expire host invoke c.1 c.2 with
  | .evicted => return n + 1
  | _ => return n

theorem evictions_aimed (hi : ∀ c, (invoke c).Stretches) (host : Host ν η μ)
    (cs : List (Key × Nat)) : ∀ (n : Nat) (w : World ν η μ), (cs.map Prod.snd).Nodup →
      (cs.foldlM (evictNext host invoke) n).Ends w fun r v => ∃ seg, v.journal = seg ++ w.journal ∧
        Aimed (fun k h => (k, h) ∈ cs) w.calls seg ∧ ∀ total, r = .ok total →
          total = n + cs.countP fun c => seg.any (·.evictsAt w.calls.length c.2) := by
  induction cs with
  | nil =>
    intro n w _
    refine ends_pure.mpr ⟨[], rfl, .nil, ?_⟩
    intro total h
    cases h
    rfl
  | cons c cs ih =>
    intro n w hnodup
    rw [List.map_cons, List.nodup_cons] at hnodup
    have widen : ∀ {seg : List (Line ν η)}, Aimed (fun k h => k = c.1 ∧ h = c.2) w.calls seg →
        Aimed (fun k h => (k, h) ∈ c :: cs) w.calls seg := by
      intro seg h
      refine h.mono ?_
      rintro k h ⟨rfl, rfl⟩
      exact List.mem_cons_self ..
    rw [List.foldlM_cons]
    refine Ends.bind (P := fun r v => ∃ hit, Attempt c.1 c.2 hit w v ∧
      ∀ m, r = .ok m → m = n + hit.toNat) ?_ ?_ ?_
    · refine (expire_attempts hi host w).bind ?_ ?_
      · rintro fate v ⟨hit, ha, hfate⟩
        have hhit : hit = fate.isEvicted := hfate fate rfl
        subst hhit
        cases fate <;> refine ends_pure.mpr ⟨_, ha, ?_⟩ <;> intro m h <;> cases h <;> rfl
      · rintro e v ⟨hit, ha, -⟩
        exact ⟨hit, ha, fun m h => by cases h⟩
    · rintro m v ⟨hit, ha, hm⟩
      obtain ⟨old, hold, haim, hhit⟩ := ha.lines
      have hm : m = n + hit.toNat := hm m rfl
      refine (ih m v hnodup.2).mono ?_
      rintro r u ⟨new, hnew, hrest, htotal⟩
      rw [ha.calls] at hrest htotal
      have hwide := hrest.mono fun k h (hk : (k, h) ∈ cs) => List.mem_cons_of_mem c hk
      refine ⟨new ++ old, ?_, (widen haim).append hwide, ?_⟩
      · rw [hnew, hold, List.append_assoc]
      · intro total h
        rw [haim.countP_hits_cons hrest hnodup.1, hhit, htotal total h, hm, Nat.add_assoc]
    · rintro e v ⟨hit, ha, -⟩
      obtain ⟨seg, hj, haim, -⟩ := ha.lines
      exact ⟨seg, hj, widen haim, fun total h => by cases h⟩

theorem sweep_aimed (hi : ∀ c, (invoke c).Stretches) (host : Host ν η μ) {w : World ν η μ}
    (hrec : Recorded w) :
    (sweep host invoke).Ends w fun r v => ∃ seg, ∃ cs : List (Key × Nat),
      v.journal = seg ++ w.journal ∧ Aimed (fun k h => (k, h) ∈ cs) w.calls seg ∧
      (∀ c ∈ cs, ∃ e, w.cache.insertion? c.1 c.2 = some e ∧ e.pending = false) ∧
      ∀ n, r = .ok n → n = cs.countP fun c => seg.any (·.evictsAt w.calls.length c.2) := by
  unfold sweep
  refine (candidates_questions host w).bind ?_ ?_
  · rintro cs w1 ⟨hw1, hcs⟩
    obtain ⟨rows, hsub, hall, rfl⟩ := hcs cs rfl
    obtain ⟨old, hold, ho⟩ := hw1.lines
    have hnodup : ((rows.map fun r => (r.1, r.2.generation)).map Prod.snd).Nodup := by
      rw [List.map_map]
      exact hrec.generations_nodup.sublist (hsub.map _)
    refine (evictions_aimed hi host _ 0 w1 hnodup).mono ?_
    rintro r v ⟨new, hnew, haim, htotal⟩
    rw [hw1.calls] at haim htotal
    have hquiet : ∀ l ∈ old, l.calls = w.calls ∧ ∀ g, l.leaves g = false :=
      fun l hl => ⟨(ho l hl).2, Line.leaves_of_consults (ho l hl).1⟩
    refine ⟨new ++ old, _, ?_, (Aimed.own_lines hquiet).append haim, ?_, ?_⟩
    · rw [hnew, hold, List.append_assoc]
    · intro c hc
      obtain ⟨r, hr, rfl⟩ := List.mem_map.mp hc
      exact ⟨r.2, Cache.insertion?_eq_some.mpr ⟨Table.get?_eq_some_iff.mpr (hsub.subset hr), rfl⟩,
        hall r hr⟩
    · intro n hn
      have hnone : ∀ g, old.any (·.evictsAt w.calls.length g) = false := by
        intro g
        refine Bool.eq_false_iff.mpr fun ht => ?_
        have haim : Aimed (fun _ _ => False) w.calls old := .own_lines hquiet
        obtain ⟨_, hno⟩ := haim.of_evictsAt ht
        exact hno
      simp only [htotal n hn, List.any_append, hnone, Bool.or_false, Nat.zero_add]
  · rintro e w1 ⟨hw1, -⟩
    obtain ⟨old, hold, ho⟩ := hw1.lines
    refine ⟨old, [], hold, .own_lines ?_, by simp, fun n h => by cases h⟩
    exact fun l hl => ⟨(ho l hl).2, Line.leaves_of_consults (ho l hl).1⟩

end Act

/-! ## What the moves add -/

namespace Recorded

variable {w v : World ν η μ} {seg : List (Line ν η)} {key : Key} {g : Nat} {e : Entry ν η}

/-- What is stored at some time leaves later or stays. -/
theorem stays_or_leaves (h : Recorded w) (k : Recorded v) (hj : v.journal = seg ++ w.journal)
    (he : w.cache.find? key = some e) :
    (∃ e', v.cache.find? key = some e' ∧ e'.generation = e.generation) ∨
      ∃ l ∈ seg, l.leaves e.generation = true := by
  obtain ⟨m, hm, hr, -⟩ := h.lives.stored key e he
  rcases k.complete m (hj ▸ List.mem_append_right _ hm) _ _ _ hr with hs | ⟨l, hl, hleft⟩
  · exact Or.inl hs
  · rw [hj] at hl
    rcases List.mem_append.mp hl with hl | hl
    · exact Or.inr ⟨l, hl, hleft⟩
    · rw [h.lives.staying key e he l hl] at hleft
      cases hleft

theorem not_inserted_again (h : Recorded w) (k : Recorded v) (hj : v.journal = seg ++ w.journal)
    (he : w.cache.insertion? key g = some e) : ∀ l ∈ seg, l.inserts g = false := by
  obtain ⟨hf, rfl⟩ := Cache.insertion?_eq_some.mp he
  obtain ⟨m, hm, hr, -⟩ := h.lives.stored key e hf
  have hold : 0 < w.journal.countP (·.inserts e.generation) :=
    List.countP_pos_iff.mpr ⟨m, hm, Line.inserts_iff.mpr ⟨_, _, hr⟩⟩
  have honce := k.lives.insertedOnce e.generation
  rw [hj, List.countP_append] at honce
  intro l hl
  refine Bool.eq_false_iff.mpr fun ht => ?_
  have hnew : 0 < seg.countP (·.inserts e.generation) := List.countP_pos_iff.mpr ⟨l, hl, ht⟩
  omega

/-- What is offered is stored and not marked, and has not left before. -/
theorem offered (h : Recorded v) {l : Line ν η} {before : List (Line ν η)} {value : ν}
    {policy : Policy η} (hs : l :: before <:+ v.journal)
    (hr : l.record = .offered g key value policy) :
    (∀ m ∈ before, m.leaves g = false) ∧ ∃ (c : Cache ν η) (e : Entry ν η),
      c.insertion? key g = some e ∧ e.pending = false ∧ l.cache = c.mark true key g := by
  have hlaw := h.chronicle.offer hs hr
  obtain ⟨e', he', hg', -⟩ := hlaw.stored
  obtain ⟨outer, c, earlier, e, -, -, hf, hg, -, -, hp, hc, -⟩ := hlaw
  refine ⟨?_, c, e, Cache.insertion?_eq_some.mpr ⟨hf, hg⟩, hp, hc⟩
  intro m hm
  have hstay := (h.chronicle.at hs).1.staying key e' he' m (List.mem_cons_of_mem _ hm)
  rwa [hg'] at hstay

theorem taken (h : Recorded v) {l : Line ν η} {before : List (Line ν η)} {value : ν}
    (hs : l :: before <:+ v.journal) (hr : l.record = .left g key value .expired) :
    ∃ (c : Cache ν η) (e : Entry ν η), c.insertion? key g = some e ∧ e.value = value ∧
      l.cache = c.takeOut key .expiration := by
  obtain ⟨-, d, rest, answers, e, policy, -, -, -, -, -, hf, hg, hv, -, -, hc⟩ :=
    h.chronicle.expiry hs hr
  exact ⟨d.cache, e, Cache.insertion?_eq_some.mpr ⟨hf, hg⟩, hv, hc⟩

end Recorded

theorem Act.Runs.moves {x : Act ν η μ α} {level : Nat} {w : World ν η μ} (h : x.Runs level w) :
    x.Ends w fun _ v => Moves level w v := by
  unfold Runs Goes at h
  refine h.mono ?_
  intro r v hr
  cases r with
  | ok a =>
    obtain ⟨seg, hrun, -⟩ := hr
    exact hrun.moves
  | error e =>
    obtain ⟨seg, hrun⟩ := hr
    exact hrun.moves

/-- Evictions hit their targets, in every world that moves lead to from a new cache and whatever the
callbacks do. An attempt to evict the insertion `g` of `key` takes out, by its own work, that
insertion or nothing: the former exactly if it answers so, and then what was stored under the key
was that insertion; and whatever else was stored in the beginning is stored still or left by the
work of callbacks. A sweep, be it asked for or a tick, is about insertions that were stored and not
marked when it began. Its own work takes out none but these, and none of these comes in while it
runs; it offers one to the handlers only if that is still stored, has not left meanwhile and is not
marked; and it answers how many of them it evicted itself. -/
theorem evictions_hit_their_targets (host : Host ν η μ) (depth : Nat) {settings : Settings η}
    {hosting : Hosting} {t : Instant} {memory : μ} {w : World ν η μ}
    (h : Moves 0 (World.fresh settings hosting t memory) w) :
    (∀ key g, evicting key w.calls = true →
      (Act.expire host (Act.call host depth) key g).Ends w fun r v => ∃ seg,
        v.journal = seg ++ w.journal ∧ Aimed (fun k i => k = key ∧ i = g) w.calls seg ∧
        (∀ fate, r = .ok fate → fate.isEvicted = seg.any (·.evictsAt w.calls.length g)) ∧
        (∀ l before value, l :: before <:+ v.journal → l.record = .left g key value .expired →
          ∃ (c : Cache ν η) (e : Entry ν η), c.insertion? key g = some e ∧ e.value = value ∧
            l.cache = c.takeOut key .expiration) ∧
        ∀ k e, w.cache.find? k = some e → e.generation ≠ g →
          (∃ e', v.cache.find? k = some e' ∧ e'.generation = e.generation) ∨
            ∃ l ∈ seg, l.leaves e.generation = true ∧ l.calls ≠ w.calls) ∧
    ((∀ key, evicting key w.calls = true) →
      (Act.sweep host (Act.call host depth)).Ends w fun r v => ∃ seg, ∃ cs : List (Key × Nat),
        v.journal = seg ++ w.journal ∧ Aimed (fun k i => (k, i) ∈ cs) w.calls seg ∧
        (∀ c ∈ cs, (∃ e, w.cache.insertion? c.1 c.2 = some e ∧ e.pending = false) ∧
          ∀ l ∈ seg, l.inserts c.2 = false) ∧
        (∀ l before key g value policy, l :: before <:+ v.journal → l ∈ seg →
          l.calls = .deciding key g :: w.calls → l.record = .offered g key value policy →
          (key, g) ∈ cs ∧ (∀ m ∈ before, m.leaves g = false) ∧
            ∃ (c : Cache ν η) (e : Entry ν η), c.insertion? key g = some e ∧ e.pending = false ∧
              l.cache = c.mark true key g) ∧
        ∀ n, r = .ok n → n = cs.countP fun c => seg.any (·.evictsAt w.calls.length c.2)) := by
  have hrec : Recorded w := (Recorded.fresh settings hosting t memory).moves h
  have hi : ∀ c, (Act.call host depth c).Stretches := Act.call_stretches host depth
  refine ⟨?_, ?_⟩
  · intro key g hev
    have hmoves := (Act.expire_runs (Act.call_invokes host depth) host
      (Nat.zero_le _) hev g).moves
    refine ((Act.expire_attempts hi host w).and hmoves).mono ?_
    rintro r v ⟨⟨hit, ha, hfate⟩, hm⟩
    obtain ⟨seg, hj, haim, hhit⟩ := ha.lines
    have hrec' := hrec.moves hm
    refine ⟨seg, hj, haim, ?_, fun l before value hs hr => hrec'.taken hs hr, ?_⟩
    · intro fate hf
      rw [hhit, hfate fate hf]
    · intro k e he hne
      refine (hrec.stays_or_leaves hrec' hj he).imp_right ?_
      rintro ⟨l, hl, hleft⟩
      refine ⟨l, hl, hleft, ?_⟩
      intro hc
      obtain ⟨k', value, exit, hr⟩ := Line.leaves_iff.mp hleft
      exact hne (haim.departures l hl hc _ k' value exit hr).1.2
  · intro hev
    have hmoves := (Act.sweep_runs (Act.call_invokes host depth)
      (Nat.zero_le _) host hev).moves
    refine ((Act.sweep_aimed hi host hrec).and hmoves).mono ?_
    rintro r v ⟨⟨seg, cs, hj, haim, hstored, htotal⟩, hm⟩
    have hrec' := hrec.moves hm
    refine ⟨seg, cs, hj, haim, ?_, ?_, htotal⟩
    · intro c hc
      obtain ⟨e, he, hp⟩ := hstored c hc
      exact ⟨⟨e, he, hp⟩, hrec.not_inserted_again hrec' hj he⟩
    · intro l before key g value policy hs hl hc hr
      exact ⟨haim.rounds l hl key g (hc ▸ List.suffix_refl _), hrec'.offered hs hr⟩

/-- The handler that is asked about an entry puts another one in its place, expired as well. -/
def Host.swapping : Host Nat String Unit where
  accepts _ := true
  consult _ _ memory := (.ok true, memory)
  respond
    | .expiring _ key value policy => .perform (.remove key) fun _ =>
        .perform (.insert key (value + 1) ⟨some policy, false⟩) fun _ => .done .proceed
    | .expired .. => .done .keep
    | .release .. => .done ()
    | .factory .. => .done (.ok 0)
    | .defaultPolicy .. => .done none

/-- Two expired entries are stored, and the handler is registered. -/
def Program.insertTwoExpired : Program Nat String Unit Unit :=
  .perform (.onExpiring "swap") fun _ =>
  .perform (.insert "j" 1 ⟨some (.duration .zero none), false⟩) fun _ =>
  .perform (.insert "k" 5 ⟨some (.duration .zero none), false⟩) fun _ => .done ()

def World.twoExpired : World Nat String Unit :=
  (Act.turn .swapping 6 .insertTwoExpired).after (.fresh .keeping .task .zero ())

/-- A sweep evicts neither of the two, as both were replaced when their turn came, and lets the
replacements be, though they have expired too. -/
theorem swapped_entries_are_not_hit :
    (World.twoExpired.cache.entries.rows.map fun r => (r.1, r.2.generation)) = [("j", 0), ("k", 1)] ∧
    (((Act.sweep .swapping (Act.call .swapping 6)).after World.twoExpired).cache.entries.rows.map
      fun r => (r.1, r.2.value, r.2.generation)) = [("j", 2, 2), ("k", 6, 3)] ∧
    (Act.sweep .swapping (Act.call .swapping 6)).Ends World.twoExpired fun r v =>
      ∃ seg, ∃ cs : List (Key × Nat), v.journal = seg ++ World.twoExpired.journal ∧
      ∀ n, r = .ok n → n = cs.countP fun c => seg.any (·.evictsAt 0 c.2) := by
  refine ⟨by decide +kernel, by decide +kernel, ?_⟩
  have hbetween : Between .swapping .keeping .task World.twoExpired :=
    .turn 6 .insertTwoExpired (.ok ()) (.fresh .zero ()) rfl
  obtain ⟨t, memory, hrun⟩ := hbetween.run
  refine ((evictions_hit_their_targets .swapping 6 hrun.moves).2 fun key => rfl).mono ?_
  rintro r v ⟨seg, cs, hj, -, -, -, hn⟩
  exact ⟨seg, cs, hj, hn⟩

end ExpiringCache
