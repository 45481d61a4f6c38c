import ExpiringCache.Proofs.Representation

/-!
# The life of an insertion

An insertion comes in once and leaves at most once, and from then on it is never stored again: not
now, and not in any snapshot that a later line of the journal kept. Between turns every insertion
that came in is stored or has left.
-/

namespace ExpiringCache

variable {ν η μ : Type}

namespace Line

theorem inserts_iff {g : Nat} {l : Line ν η} :
    l.inserts g = true ↔ ∃ key value, l.record = .inserted g key value := by
  unfold inserts
  cases l.record <;> simp

theorem leaves_iff {g : Nat} {l : Line ν η} :
    l.leaves g = true ↔ ∃ key value exit, l.record = .left g key value exit := by
  unfold leaves
  cases l.record <;> simp

theorem not_passage {l : Line ν η} (h : l.record.isPassage = false) (g : Nat) :
    l.inserts g = false ∧ l.leaves g = false := by
  obtain ⟨record, now, calls, cache⟩ := l
  cases record with
  | inserted => cases h
  | left => cases h
  | _ => exact ⟨rfl, rfl⟩

end Line

/-- What is stored agrees with who came in and who left. -/
structure Lives (c : Cache ν η) (journal : List (Line ν η)) : Prop where
  stored : ∀ key e, c.find? key = some e → ∃ l ∈ journal,
    l.record = .inserted e.generation key e.value ∧
    ∃ e₀, l.cache.find? key = some e₀ ∧ e₀.canExpire = e.canExpire
  staying : ∀ key e, c.find? key = some e → ∀ l ∈ journal, l.leaves e.generation = false
  came : ∀ l ∈ journal, ∀ g key value exit, l.record = .left g key value exit →
    ∃ m ∈ journal, m.record = .inserted g key value
  below : ∀ l ∈ journal, ∀ g, l.inserts g = true → g < c.nextGeneration
  insertedOnce : ∀ g, journal.countP (·.inserts g) ≤ 1
  leftOnce : ∀ g, journal.countP (·.leaves g) ≤ 1

namespace Lives

variable {c d : Cache ν η} {journal : List (Line ν η)} {l : Line ν η} {g : Nat} {key : Key}
  {value : ν} {exit : Exit}

theorem create (settings : Settings η) (hosting : Hosting) :
    Lives (Cache.create settings hosting : Cache ν η) [] where
  stored key e he := by cases he
  staying key e he := by cases he
  came l hl := by cases hl
  below l hl := by cases hl
  insertedOnce g := Nat.zero_le 1
  leftOnce g := Nat.zero_le 1

theorem less (h : Lives c journal) (hn : c.nextGeneration ≤ d.nextGeneration)
    (hl : ∀ key e', d.find? key = some e' →
      ∃ e, c.find? key = some e ∧ e.generation = e'.generation ∧ e.value = e'.value ∧
        e.canExpire = e'.canExpire) :
    Lives d journal where
  stored key e' he' := by
    obtain ⟨e, he, hg, hv, hx⟩ := hl key e' he'
    rw [← hg, ← hv, ← hx]
    exact h.stored key e he
  staying key e' he' := by
    obtain ⟨e, he, hg, -⟩ := hl key e' he'
    rw [← hg]
    exact h.staying key e he
  came := h.came
  below l hm g hg := Nat.lt_of_lt_of_le (h.below l hm g hg) hn
  insertedOnce := h.insertedOnce
  leftOnce := h.leftOnce

theorem note (h : Lives c journal) (hr : l.record.isPassage = false) : Lives c (l :: journal) where
  stored key e he := by
    obtain ⟨m, hm, hrec⟩ := h.stored key e he
    exact ⟨m, List.mem_cons_of_mem _ hm, hrec⟩
  staying key e he m hm := by
    rcases List.mem_cons.mp hm with rfl | hm
    · exact (Line.not_passage hr _).2
    · exact h.staying key e he m hm
  came m hm g key value exit hrec := by
    rcases List.mem_cons.mp hm with rfl | hm
    · rw [hrec] at hr
      cases hr
    · obtain ⟨n, hn, hrec'⟩ := h.came m hm g key value exit hrec
      exact ⟨n, List.mem_cons_of_mem _ hn, hrec'⟩
  below m hm g hg := by
    rcases List.mem_cons.mp hm with rfl | hm
    · rw [(Line.not_passage hr g).1] at hg
      cases hg
    · exact h.below m hm g hg
  insertedOnce g := by
    rw [List.countP_cons_of_neg (by simp [(Line.not_passage hr g).1])]
    exact h.insertedOnce g
  leftOnce g := by
    rw [List.countP_cons_of_neg (by simp [(Line.not_passage hr g).2])]
    exact h.leftOnce g

theorem unknown (h : Lives c journal) : (∀ l ∈ journal, l.inserts c.nextGeneration = false) ∧
    ∀ l ∈ journal, l.leaves c.nextGeneration = false := by
  have hin : ∀ l ∈ journal, l.inserts c.nextGeneration = false := by
    intro l hl
    exact Bool.eq_false_iff.mpr fun ht => Nat.lt_irrefl _ (h.below l hl _ ht)
  refine ⟨hin, ?_⟩
  intro l hl
  refine Bool.eq_false_iff.mpr fun ht => ?_
  obtain ⟨key, value, exit, hrec⟩ := Line.leaves_iff.mp ht
  obtain ⟨m, hm, hrec'⟩ := h.came l hl _ _ _ _ hrec
  have := hin m hm
  rw [Line.inserts_iff.mpr ⟨_, _, hrec'⟩] at this
  cases this

theorem insert (h : Lives c journal) (t : Instant) (policy : Option (Policy η))
    (hr : l.record = .inserted c.nextGeneration key value)
    (hc : l.cache = c.insert t key value policy) :
    Lives (c.insert t key value policy) (l :: journal) := by
  obtain ⟨hin, hout⟩ := h.unknown
  have hfind : ∀ j e, (c.insert t key value policy).find? j = some e →
      (j = key ∧ e = .insertedAt t value policy c.nextGeneration) ∨ c.find? j = some e := by
    intro j e he
    exact (Cache.find?_insert_eq_some.mp he).imp_right fun h => h.2
  have hl : ∀ g, l.leaves g = false := by
    intro g
    unfold Line.leaves
    rw [hr]
  have hi : ∀ g, l.inserts g = true ↔ c.nextGeneration = g := by
    intro g
    unfold Line.inserts
    rw [hr]
    exact beq_iff_eq
  refine ⟨?_, ?_, ?_, ?_, ?_, ?_⟩
  · intro j e he
    rcases hfind j e he with ⟨rfl, rfl⟩ | he'
    · exact ⟨l, List.mem_cons_self .., hr, _, by rw [hc]; exact he, rfl⟩
    · obtain ⟨m, hm, hrec⟩ := h.stored j e he'
      exact ⟨m, List.mem_cons_of_mem _ hm, hrec⟩
  · intro j e he m hm
    rcases List.mem_cons.mp hm with rfl | hm
    · exact hl _
    · rcases hfind j e he with ⟨rfl, rfl⟩ | he
      · exact hout m hm
      · exact h.staying j e he m hm
  · intro m hm g j u exit hrec
    rcases List.mem_cons.mp hm with rfl | hm
    · rw [hr] at hrec
      cases hrec
    · obtain ⟨n, hn, hrec'⟩ := h.came m hm g j u exit hrec
      exact ⟨n, List.mem_cons_of_mem _ hn, hrec'⟩
  · intro m hm g hg
    rcases List.mem_cons.mp hm with rfl | hm
    · rw [← (hi g).mp hg]
      exact Nat.lt_succ_self _
    · exact Nat.lt_succ_of_lt (h.below m hm g hg)
  · intro g
    rw [List.countP_cons]
    split
    · rename_i hg
      rw [← (hi g).mp hg]
      have hz : journal.countP (·.inserts c.nextGeneration) = 0 :=
        List.countP_eq_zero.mpr fun m hm => by simp [hin m hm]
      omega
    · exact h.insertedOnce g
  · intro g
    rw [List.countP_cons_of_neg (by simp [hl g])]
    exact h.leftOnce g

theorem leave (h : Lives c journal) (hr : l.record = .left g key value exit)
    (hcame : ∃ m ∈ journal, m.record = .inserted g key value)
    (hstay : ∀ m ∈ journal, m.leaves g = false)
    (hgone : ∀ j e, c.find? j = some e → e.generation ≠ g) : Lives c (l :: journal) := by
  have hi : ∀ i, l.inserts i = false := by
    intro i
    unfold Line.inserts
    rw [hr]
  have hl : ∀ i, l.leaves i = true ↔ g = i := by
    intro i
    unfold Line.leaves
    rw [hr]
    exact beq_iff_eq
  refine ⟨?_, ?_, ?_, ?_, ?_, ?_⟩
  · intro j e he
    obtain ⟨m, hm, hrec⟩ := h.stored j e he
    exact ⟨m, List.mem_cons_of_mem _ hm, hrec⟩
  · intro j e he m hm
    rcases List.mem_cons.mp hm with rfl | hm
    · exact Bool.eq_false_iff.mpr fun ht => hgone j e he ((hl _).mp ht).symm
    · exact h.staying j e he m hm
  · intro m hm i j u x hrec
    rcases List.mem_cons.mp hm with rfl | hm
    · rw [hr] at hrec
      cases hrec
      obtain ⟨n, hn, hrec'⟩ := hcame
      exact ⟨n, List.mem_cons_of_mem _ hn, hrec'⟩
    · obtain ⟨n, hn, hrec'⟩ := h.came m hm i j u x hrec
      exact ⟨n, List.mem_cons_of_mem _ hn, hrec'⟩
  · intro m hm i hg
    rcases List.mem_cons.mp hm with rfl | hm
    · rw [hi] at hg
      cases hg
    · exact h.below m hm i hg
  · intro i
    rw [List.countP_cons_of_neg (by simp [hi i])]
    exact h.insertedOnce i
  · intro i
    rw [List.countP_cons]
    split
    · rename_i hg
      rw [← (hl i).mp hg]
      have hz : journal.countP (·.leaves g) = 0 :=
        List.countP_eq_zero.mpr fun m hm => by simp [hstay m hm]
      omega
    · exact h.leftOnce i

end Lives

/-- Every line is lawful and keeps a snapshot that agrees with the lines up to it. -/
def Chronicle : List (Line ν η) → Prop
  | [] => True
  | l :: before => Lives l.cache (l :: before) ∧ l.Lawful before ∧ Chronicle before

theorem Chronicle.at {journal before : List (Line ν η)} {l : Line ν η} (h : Chronicle journal)
    (hs : l :: before <:+ journal) :
    Lives l.cache (l :: before) ∧ l.Lawful before ∧ Chronicle before := by
  obtain ⟨new, rfl⟩ := hs
  induction new with
  | nil => exact h
  | cons m new ih => exact ih h.2.2

/-- The lines before a record of this kind justify it. -/
theorem Chronicle.lawful {journal before : List (Line ν η)} {l : Line ν η} {r : Record ν η}
    (h : Chronicle journal) (hs : l :: before <:+ journal) (hr : l.record = r) :
    Line.Lawful { l with record := r } before := by
  subst hr
  exact (h.at hs).2.1

theorem exists_suffix_of_mem {journal : List (Line ν η)} {l : Line ν η} (h : l ∈ journal) :
    ∃ before, l :: before <:+ journal := by
  obtain ⟨new, before, hsplit⟩ := List.append_of_mem h
  exact ⟨before, new, hsplit.symm⟩

/-- What the moves keep. -/
structure Recorded (w : World ν η μ) : Prop where
  sound : Sound w.calls w.cache
  lives : Lives w.cache w.journal
  chronicle : Chronicle w.journal
  complete : ∀ l ∈ w.journal, ∀ g key value, l.record = .inserted g key value →
    (∃ e, w.cache.find? key = some e ∧ e.generation = g) ∨ ∃ m ∈ w.journal, m.leaves g = true

/-- A mark changes neither the generation nor the value nor the policy. -/
theorem Cache.kept_mark (b : Bool) (key : Key) (g : Nat) (c : Cache ν η) (j : Key) :
    ((c.mark b key g).find? j).map (fun e => (e.generation, e.value, e.policy)) =
      (c.find? j).map (fun e => (e.generation, e.value, e.policy)) := by
  rw [find?_mark]
  split
  · rename_i hj
    subst hj
    rw [Option.map_map]
    congr 1
    funext e
    simp only [Function.comp]
    split <;> rfl
  · rfl

theorem Cache.stays_mark (b : Bool) (key : Key) (g : Nat) (c : Cache ν η) (j : Key) :
    ((c.mark b key g).find? j).map (fun e => (e.generation, e.value, e.canExpire)) =
      (c.find? j).map (fun e => (e.generation, e.value, e.canExpire)) := by
  have h := congrArg (Option.map fun t : Nat × ν × Option (Policy η) => (t.1, t.2.1, t.2.2.isSome))
    (Cache.kept_mark b key g c j)
  rw [Option.map_map, Option.map_map] at h
  exact h

namespace Recorded

variable {w w' : World ν η μ}

theorem silent (h : Recorded w) (hs : Sound w'.calls w'.cache) (hj : w'.journal = w.journal)
    (hn : w'.cache.nextGeneration = w.cache.nextGeneration)
    (hf : ∀ key, (w'.cache.find? key).map (fun e => (e.generation, e.value, e.canExpire)) =
      (w.cache.find? key).map (fun e => (e.generation, e.value, e.canExpire))) : Recorded w' := by
  refine ⟨hs, ?_, ?_, ?_⟩
  · rw [hj]
    refine h.lives.less (Nat.le_of_eq hn.symm) ?_
    intro key e' he'
    have hk := hf key
    rw [he'] at hk
    obtain ⟨e, he, heq⟩ := Option.map_eq_some_iff.mp hk.symm
    simp only [Prod.mk.injEq] at heq
    exact ⟨e, he, heq⟩
  · rw [hj]
    exact h.chronicle
  · intro l hl g key value hrec
    rw [hj] at hl ⊢
    rcases h.complete l hl g key value hrec with ⟨e, he, hg⟩ | hleft
    · have hk := hf key
      rw [he] at hk
      obtain ⟨e', he', heq⟩ := Option.map_eq_some_iff.mp hk
      exact Or.inl ⟨e', he', (congrArg Prod.fst heq).trans hg⟩
    · exact Or.inr hleft

theorem note (h : Recorded w) {r : Record ν η} (hr : r.isPassage = false)
    (hl : (w.line r).Lawful w.journal) : Recorded (w.note r) := by
  have hlives : Lives w.cache (w.line r :: w.journal) := h.lives.note hr
  refine ⟨h.sound, hlives, ⟨hlives, hl, h.chronicle⟩, ?_⟩
  intro l hm g key value hrec
  rcases List.mem_cons.mp hm with rfl | hm
  · cases hrec
    cases hr
  · rcases h.complete l hm g key value hrec with hstored | ⟨m, hm', hleft⟩
    · exact Or.inl hstored
    · exact Or.inr ⟨m, List.mem_cons_of_mem _ hm', hleft⟩

theorem distinct (h : Recorded w) {k k' : Key} {e e' : Entry ν η} (he : w.cache.find? k = some e)
    (he' : w.cache.find? k' = some e') (hg : e.generation = e'.generation) : k = k' :=
  h.sound.coherent.distinct k k' e e' he he' hg

theorem lives_replaced (h : Recorded w) (key : Key) (value : ν) (policy : Option (Policy η))
    {old : Entry ν η} (hold : w.cache.find? key = some old)
    (hcame : Lives (w.cache.insert w.now key value policy)
      ((w.change (.insert w.now key value policy)).line (.inserted w.cache.nextGeneration key value)
        :: w.journal)) :
    Lives (w.cache.insert w.now key value policy)
      ((w.change (.insert w.now key value policy)).line
        (.left old.generation key old.value .replaced) ::
      (w.change (.insert w.now key value policy)).line (.inserted w.cache.nextGeneration key value)
        :: w.journal) := by
  refine hcame.leave rfl ?_ ?_ ?_
  · obtain ⟨m, hm, hrec, -⟩ := h.lives.stored key old hold
    exact ⟨m, List.mem_cons_of_mem _ hm, hrec⟩
  · intro m hm
    rcases List.mem_cons.mp hm with rfl | hm
    · rfl
    · exact h.lives.staying key old hold m hm
  · intro j e he
    rcases Cache.find?_insert_eq_some.mp he with ⟨-, rfl⟩ | ⟨hj, he⟩
    · exact Nat.ne_of_gt (h.sound.coherent.below key old hold)
    · exact fun hg => hj (h.distinct he hold hg)

/-- Whoever came in before is stored still, or left then or before. -/
theorem complete_placed (h : Recorded w) (key : Key) (value : ν) (policy : Option (Policy η))
    {l : Line ν η} (hl : l ∈ w.journal) {g : Nat} {k : Key} {u : ν}
    (hrec : l.record = .inserted g k u) :
    (∃ e, (w.placed key value policy).cache.find? k = some e ∧ e.generation = g) ∨
      ∃ m ∈ w.placedLines key value policy ++ w.journal, m.leaves g = true := by
  rcases h.complete l hl g k u hrec with ⟨e, he, hg⟩ | ⟨m, hm, hleft⟩
  · by_cases hk : k = key
    · subst hk
      refine Or.inr ⟨(w.change (.insert w.now k value policy)).line (.left g k e.value .replaced),
        List.mem_append_left _ ?_, beq_self_eq_true g⟩
      unfold World.placedLines
      rw [he, ← hg]
      exact List.mem_cons_self ..
    · refine Or.inl ⟨e, ?_, hg⟩
      rw [World.cache_placed, Cache.find?_insert, if_neg hk]
      exact he
  · exact Or.inr ⟨m, List.mem_append_right _ hm, hleft⟩

theorem place (h : Recorded w) (key : Key) (value : ν) (policy : Option (Policy η))
    (hs : Sound (w.placed key value policy).calls (w.placed key value policy).cache) :
    Recorded (w.placed key value policy) := by
  have hcame : Lives (w.cache.insert w.now key value policy)
      ((w.change (.insert w.now key value policy)).line (.inserted w.cache.nextGeneration key value)
        :: w.journal) := h.lives.insert w.now policy rfl rfl
  have hjournal := w.journal_placed key value policy
  have hcache := w.cache_placed key value policy
  refine ⟨hs, ?_, ?_, ?_⟩
  · rw [hcache, hjournal]
    unfold World.placedLines
    cases hold : w.cache.find? key with
    | none => exact hcame
    | some old => exact h.lives_replaced key value policy hold hcame
  · rw [hjournal]
    unfold World.placedLines
    cases hold : w.cache.find? key with
    | none => exact ⟨hcame, trivial, h.chronicle⟩
    | some old =>
      exact ⟨h.lives_replaced key value policy hold hcame, trivial, hcame, trivial, h.chronicle⟩
  · intro l hm g k u hrec
    rw [hjournal] at hm ⊢
    rcases List.mem_append.mp hm with hm | hm
    · have hnew : l.record = .inserted w.cache.nextGeneration key value := by
        unfold World.placedLines at hm
        split at hm
        · rw [List.mem_singleton.mp hm]
          rfl
        · rcases List.mem_cons.mp hm with rfl | hm
          · cases hrec
          · rw [List.mem_singleton.mp hm]
            rfl
      rw [hrec] at hnew
      cases hnew
      refine Or.inl ⟨.insertedAt w.now value policy w.cache.nextGeneration, ?_, rfl⟩
      rw [hcache, Cache.find?_insert, if_pos rfl]
    · exact h.complete_placed key value policy hm hrec

theorem takeOut (h : Recorded w) {key : Key} {e : Entry ν η} {exit : Exit} {f : Stats → Stats}
    (hf : w.cache.find? key = some e)
    (hl : ((w.change (.takeOut key f)).line (.left e.generation key e.value exit)).Lawful w.journal)
    (hs : Sound w.calls (w.cache.takeOut key f)) :
    Recorded ((w.change (.takeOut key f)).note (.left e.generation key e.value exit)) := by
  have hless : Lives (w.cache.takeOut key f) w.journal := by
    refine h.lives.less (Nat.le_refl _) ?_
    exact fun j e' he' => ⟨e', (Cache.find?_takeOut_eq_some.mp he').2, rfl, rfl, rfl⟩
  have hgone : Lives (w.cache.takeOut key f)
      ((w.change (.takeOut key f)).line (.left e.generation key e.value exit) :: w.journal) := by
    obtain ⟨m, hm, hrec, -⟩ := h.lives.stored key e hf
    refine hless.leave rfl ⟨m, hm, hrec⟩ (h.lives.staying key e hf) ?_
    intro j e' he' hg
    obtain ⟨hj, he'⟩ := Cache.find?_takeOut_eq_some.mp he'
    exact hj (h.distinct he' hf hg)
  refine ⟨hs, hgone, ⟨hgone, hl, h.chronicle⟩, ?_⟩
  intro l hm g k u hrec
  rcases List.mem_cons.mp hm with rfl | hm
  · cases hrec
  · rcases h.complete l hm g k u hrec with ⟨e', he', hg⟩ | ⟨m, hm', hleft⟩
    · by_cases hj : k = key
      · subst hj
        rw [hf] at he'
        cases he'
        exact Or.inr ⟨_, List.mem_cons_self .., beq_iff_eq.mpr hg⟩
      · refine Or.inl ⟨e', ?_, hg⟩
        rw [World.cache_note, World.cache_change, Cache.find?_takeOut, if_neg hj]
        exact he'
    · exact Or.inr ⟨m, List.mem_cons_of_mem _ hm', hleft⟩

/-- Rows that were taken out leave one after another. -/
theorem cleared (rows : List (Key × Entry ν η)) : ∀ w : World ν η μ,
    Lives w.cache w.journal → Chronicle w.journal → (∀ j, w.cache.find? j = none) →
    (rows.map (·.2.generation)).Nodup →
    (∀ r ∈ rows, (∃ m ∈ w.journal, m.record = .inserted r.2.generation r.1 r.2.value) ∧
      ∀ m ∈ w.journal, m.leaves r.2.generation = false) →
    Lives w.cache (w.noteCleared rows).journal ∧ Chronicle (w.noteCleared rows).journal := by
  induction rows with
  | nil =>
    intro w hl hc _ _ _
    exact ⟨hl, hc⟩
  | cons r rows ih =>
    intro w hl hc hempty hnodup hrows
    rw [List.map_cons, List.nodup_cons] at hnodup
    obtain ⟨hcame, hstay⟩ := hrows r (List.mem_cons_self ..)
    have hgone : Lives w.cache
        (w.line (.left r.2.generation r.1 r.2.value .cleared) :: w.journal) := by
      refine hl.leave rfl hcame hstay ?_
      intro j e he
      rw [hempty] at he
      cases he
    -- the other rows have other generations, so this departure is none of theirs
    refine ih (w.note _) hgone ⟨hgone, trivial, hc⟩ hempty hnodup.2 ?_
    intro q hq
    obtain ⟨⟨m, hm, hrec⟩, hq'⟩ := hrows q (List.mem_cons_of_mem _ hq)
    refine ⟨⟨m, List.mem_cons_of_mem _ hm, hrec⟩, ?_⟩
    intro n hn
    rcases List.mem_cons.mp hn with rfl | hn
    · refine Bool.eq_false_iff.mpr fun ht => hnodup.1 ?_
      have hg : r.2.generation = q.2.generation := beq_iff_eq.mp ht
      rw [hg]
      exact List.mem_map.mpr ⟨q, hq, rfl⟩
    · exact hq' n hn

theorem generations_nodup (h : Recorded w) :
    (w.cache.entries.rows.map (·.2.generation)).Nodup := by
  have hkeys := List.pairwise_map.mp w.cache.entries.distinct
  refine List.pairwise_map.mpr (hkeys.imp_of_mem ?_)
  intro r q hr hq hne hg
  exact hne (h.distinct (Table.get?_eq_some_iff.mpr hr) (Table.get?_eq_some_iff.mpr hq) hg)

theorem empty (h : Recorded w) (hs : Sound w.emptied.calls w.emptied.cache) :
    Recorded w.emptied := by
  have hless : Lives w.cache.drain w.journal := by
    refine h.lives.less (Nat.le_refl _) ?_
    intro j e he
    cases he
  have hrows : ∀ r ∈ w.cache.entries.rows, w.cache.find? r.1 = some r.2 :=
    fun r hr => Table.get?_eq_some_iff.mpr hr
  obtain ⟨hlives, hchronicle⟩ := cleared w.cache.entries.rows (w.change .drain) hless h.chronicle
    (fun _ => rfl) h.generations_nodup
    (fun r hr => ⟨by
      obtain ⟨m, hm, hrec, -⟩ := h.lives.stored r.1 r.2 (hrows r hr)
      exact ⟨m, hm, hrec⟩, h.lives.staying r.1 r.2 (hrows r hr)⟩)
  have hcache : w.emptied.cache = w.cache.drain := by
    rw [World.emptied_eq]
    rfl
  refine ⟨hs, ?_, hchronicle, ?_⟩
  · rw [hcache]
    exact hlives
  · intro l hm g k u hrec
    have hj : w.emptied.journal =
        (w.change .drain).clearedLines w.cache.entries.rows ++ w.journal := by
      rw [World.emptied_eq]
    rw [hj] at hm ⊢
    rcases List.mem_append.mp hm with hm | hm
    · obtain ⟨r, -, rfl⟩ := List.mem_map.mp (List.mem_reverse.mp hm)
      cases hrec
    · rcases h.complete l hm g k u hrec with ⟨e, he, hg⟩ | ⟨m, hm', hleft⟩
      · refine Or.inr ⟨(w.change .drain).line (.left e.generation k e.value .cleared), ?_, ?_⟩
        · refine List.mem_append_left _ (List.mem_reverse.mpr (List.mem_map.mpr ⟨(k, e), ?_, rfl⟩))
          exact Table.get?_eq_some_iff.mp he
        · exact beq_iff_eq.mpr hg
      · exact Or.inr ⟨m, List.mem_append_right _ hm', hleft⟩

theorem fresh (settings : Settings η) (hosting : Hosting) (t : Instant) (memory : μ) :
    Recorded (World.fresh settings hosting t memory : World ν η μ) where
  sound := sound_create settings hosting
  lives := .create settings hosting
  chronicle := trivial
  complete l hl := by cases hl

theorem setTimer (h : Recorded w) (timer : Option Timer) : Recorded (w.change (.setTimer timer)) :=
  h.silent (h.sound.setTimer timer) rfl rfl fun _ => rfl

theorem move {level : Nat} (h : Recorded w) (hm : Move level w w') : Recorded w' := by
  have hs := hm.sound h.sound
  cases hm with
  | note r hr hl => exact h.note hr hl
  | tune f hb =>
    refine h.silent hs rfl hb.nextGeneration ?_
    intro key
    show ((f w.cache).entries.get? key).map _ = _
    rw [hb.entries]
    rfl
  | touch key =>
    refine h.silent hs rfl rfl ?_
    intro j
    rw [World.cache_change, Cache.find?_touch]
    split
    · rename_i hj
      subst hj
      rw [Option.map_map]
      congr 1
      funext e
      simp only [Function.comp, Entry.canExpire_touch, Entry.generation_touch, Entry.value_touch]
    · rfl
  | mark key g e hins hp => exact h.silent hs rfl rfl (Cache.stays_mark true key g w.cache)
  | unmark key g rest hc => exact h.silent hs rfl rfl (Cache.stays_mark false key g w.cache)
  | place key value policy =>
    obtain ⟨timer, ht⟩ := (w.placed key value policy).tended_eq policy
    rw [ht]
    refine (h.place key value policy ?_).setTimer timer
    rw [World.calls_placed, World.cache_placed]
    exact h.sound.insert w.now key value policy
  | takeOut key e exit f hf hl => exact h.takeOut hf hl hs
  | empty => exact h.empty hs
  | close =>
    have hclosed : Recorded (w.change fun c => { c.setTimer none with handle := .closed }) :=
      h.silent ⟨h.sound.marks, h.sound.total, h.sound.admission⟩ rfl rfl fun _ => rfl
    exact hclosed.empty hs
  | _ => exact h.silent hs rfl rfl fun _ => rfl

theorem moves {level : Nat} (h : Recorded w) (hm : Moves level w w') : Recorded w' := by
  induction hm with
  | refl => exact h
  | tail _ hm ih => exact ih.move hm

end Recorded

variable {host : Host ν η μ} {settings : Settings η} {hosting : Hosting} {w : World ν η μ}

theorem Reachable.recorded (h : Reachable host settings hosting w) : Recorded w :=
  h.invariant (.fresh settings hosting) fun hm hv => hv.move hm

theorem eq_of_countP_le_one {α : Type} {p : α → Bool} {xs : List α} (h : xs.countP p ≤ 1)
    {a b : α} (ha : a ∈ xs) (hb : b ∈ xs) (hpa : p a = true) (hpb : p b = true) : a = b := by
  induction xs with
  | nil => cases ha
  | cons x xs ih =>
    rw [List.countP_cons] at h
    have none_of : p x = true → ∀ c ∈ xs, p c = true → False := by
      intro hx c hc hpc
      rw [if_pos hx] at h
      have hpos := List.countP_pos_iff.mpr ⟨c, hc, hpc⟩
      omega
    rcases List.mem_cons.mp ha with rfl | ha' <;> rcases List.mem_cons.mp hb with rfl | hb'
    · rfl
    · exact (none_of hpa b hb' hpb).elim
    · exact (none_of hpb a ha' hpa).elim
    · exact ih (Nat.le_trans (Nat.le_add_right _ _) h) ha' hb'

theorem Lives.inserted_unique {c : Cache ν η} {journal : List (Line ν η)} (h : Lives c journal)
    {l m : Line ν η} (hl : l ∈ journal) (hm : m ∈ journal) {g : Nat} {k j : Key} {u v : ν}
    (hlr : l.record = .inserted g k u) (hmr : m.record = .inserted g j v) : k = j ∧ u = v := by
  have he : l = m := eq_of_countP_le_one (h.insertedOnce g) hl hm
    (Line.inserts_iff.mpr ⟨k, u, hlr⟩) (Line.inserts_iff.mpr ⟨j, v, hmr⟩)
  subst he
  rw [hlr] at hmr
  cases hmr
  exact ⟨rfl, rfl⟩

theorem Lives.left_unique {c : Cache ν η} {journal : List (Line ν η)} (h : Lives c journal)
    {l m : Line ν η} (hl : l ∈ journal) (hm : m ∈ journal) {g : Nat} {k j : Key} {u v : ν}
    {x y : Exit} (hlr : l.record = .left g k u x) (hmr : m.record = .left g j v y) : l = m :=
  eq_of_countP_le_one (h.leftOnce g) hl hm (Line.leaves_iff.mpr ⟨k, u, x, hlr⟩)
    (Line.leaves_iff.mpr ⟨j, v, y, hmr⟩)

end ExpiringCache
