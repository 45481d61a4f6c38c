import ExpiringCache.Proofs.Fetching
import ExpiringCache.Proofs.Quiet

/-!
# Single flight

However the steps of many fetches are mixed, one caller of a key is inside at most. So a caller that
finds nothing stored under its key is the only one to work on it until it is done, of the factories
that are called for a key one succeeds at most, and whoever gets a value gets the stored one.
-/

namespace ExpiringCache

variable {ν η μ : Type} {host : Host ν η μ} {invoke : Invoke ν η μ}

/-! ## One value per key -/

def places (cs : List (Caller ν)) : List (Key × Place) := cs.map fun c => (c.key, c.place)

theorem Caller.Turn.orderly {w w' : World ν η μ} {c c' : Caller ν} {cs : List (Caller ν)}
    (ht : c.Turn host invoke w w' c') (h : Orderly w.cache.admission (places (c :: cs))) :
    Orderly w'.cache.admission (places (c' :: cs)) := by
  cases ht with
  | refuse hp ha =>
    simp only [places, List.map_cons, hp] at h
    exact h.turn_back
  | pass hpass => exact h.passage hpass
  | read retries hp htask hl hread =>
    rw [((Act.lookup_live hl hread).2 c.key).admission]
    exact h
  | make => exact h
  | store htask hplace =>
    rw [(Act.place_stores hplace).1]
    exact h

variable (host) in
/-- What holds of the world and the callers at every moment, `start` being what was stored under the
key when they came: above all, who works on it has found nothing, and nobody has got a value. -/
structure Flying (key : Key) (start : Option ν) (w : World ν η μ) (cs : List (Caller ν)) :
    Prop where
  orderly : Orderly w.cache.admission (places cs)
  sound : ∀ c ∈ cs, c.Sound host
  kept : ∀ value, start = some value → w.value? key = some value
  received : ∀ c ∈ cs, c.key = key → ∀ value, c.value? = some value → w.value? key = some value
  alone : ∀ c ∈ cs, c.key = key → c.works = true → ∀ d ∈ cs, d.key = key → d.value? = none
  needed : ∀ c ∈ cs, c.key = key → c.works = true ∨ c.made.isSome = true → start = none
  once : (cs.countP fun c => c.key = key && c.succeeded) ≤ 1

namespace Flying

variable {key : Key} {start : Option ν} {w w' : World ν η μ} {c c' : Caller ν}
  {cs ds : List (Caller ν)}

theorem perm (h : Flying host key start w cs) (hp : cs.Perm ds) : Flying host key start w ds := by
  refine ⟨h.orderly.perm (hp.map _), ?_, h.kept, ?_, ?_, ?_, ?_⟩
  · intro c hc
    exact h.sound c (hp.mem_iff.mpr hc)
  · intro c hc
    exact h.received c (hp.mem_iff.mpr hc)
  · intro c hc hk hw d hd
    exact h.alone c (hp.mem_iff.mpr hc) hk hw d (hp.mem_iff.mpr hd)
  · intro c hc
    exact h.needed c (hp.mem_iff.mpr hc)
  · rw [← hp.countP_eq]
    exact h.once

theorem idle (h : Flying host key start w (c :: cs)) (hk : c.key = key)
    (hin : c.place.isInside = true) {d : Caller ν} (hd : d ∈ cs) (hdk : d.key = key) :
    d.works = false := by
  refine Bool.eq_false_iff.mpr fun hw => ?_
  have hinside := (h.sound d (List.mem_cons_of_mem _ hd)).inside hw
  have hout := h.orderly.others_outside hin (List.mem_map_of_mem hd) (hdk.trans hk.symm)
  rw [hinside] at hout
  cases hout

theorem unserved (h : Flying host key start w cs) (hnone : w.value? key = none) {d : Caller ν}
    (hd : d ∈ cs) (hdk : d.key = key) : d.value? = none := by
  cases hv : d.value? with
  | none => rfl
  | some value =>
    have hold := h.received d hd hdk value hv
    rw [hnone] at hold
    cases hold

theorem start_eq_none (h : Flying host key start w cs) (hnone : w.value? key = none) :
    start = none := by
  cases hs : start with
  | none => rfl
  | some value =>
    rw [h.kept value hs] at hnone
    cases hnone

/-- While a caller works no factory of another one has succeeded. -/
theorem none_succeeded (h : Flying host key start w (c :: cs)) (hk : c.key = key)
    (hw : c.works = true) : (cs.countP fun d => d.key = key && d.succeeded) = 0 := by
  have hself := List.mem_cons_self (a := c) (l := cs)
  refine List.countP_eq_zero.mpr ?_
  intro d hd hsucc
  simp only [Bool.and_eq_true, decide_eq_true_eq] at hsucc
  obtain ⟨hdk, hsucc⟩ := hsucc
  rcases (h.sound d (List.mem_cons_of_mem _ hd)).of_succeeded hsucc with hdw | ⟨v, hv⟩
  · rw [h.idle hk ((h.sound c hself).inside hw) hd hdk] at hdw
    cases hdw
  · rw [h.alone c hself hk hw d (List.mem_cons_of_mem _ hd) hdk] at hv
    cases hv

theorem aside (h : Flying host key start w (c :: cs)) (hk : c.key ≠ key)
    (horderly : Orderly w'.cache.admission (places (c' :: cs))) (hkey : c'.key = c.key)
    (hsound : c'.Sound host) (hsame : w'.value? key = w.value? key) :
    Flying host key start w' (c' :: cs) := by
  have hother : ∀ d ∈ c' :: cs, d.key = key → d ∈ cs := by
    intro d hd hdk
    rcases List.mem_cons.mp hd with rfl | hd
    · exact (hk (hkey.symm.trans hdk)).elim
    · exact hd
  refine ⟨horderly, ?_, ?_, ?_, ?_, ?_, ?_⟩
  · intro d hd
    rcases List.mem_cons.mp hd with rfl | hd
    · exact hsound
    · exact h.sound d (List.mem_cons_of_mem _ hd)
  · intro value hs
    rw [hsame]
    exact h.kept value hs
  · intro d hd hdk
    rw [hsame]
    exact h.received d (List.mem_cons_of_mem _ (hother d hd hdk)) hdk
  · intro x hx hxk hw y hy hyk
    exact h.alone x (List.mem_cons_of_mem _ (hother x hx hxk)) hxk hw y
      (List.mem_cons_of_mem _ (hother y hy hyk)) hyk
  · intro d hd hdk
    exact h.needed d (List.mem_cons_of_mem _ (hother d hd hdk)) hdk
  · have hold := h.once
    rw [List.countP_cons] at hold ⊢
    simpa [hkey, hk] using hold

/-- A caller of the key came further, and the world with it: it starts to work only where nothing is
stored, gets what is stored, and stores something only where it worked. -/
theorem advance (h : Flying host key start w (c :: cs)) (hk : c.key = key)
    (horderly : Orderly w'.cache.admission (places (c' :: cs))) (hkey : c'.key = c.key)
    (hsound : c'.Sound host) (hhere : w'.value? key = w.value? key ∨ c.works = true)
    (hvalue : ∀ value, c'.value? = some value → w'.value? key = some value ∧
      (c.place.isInside = true ∨ c.value? = some value))
    (hworks : c'.works = true → c.works = true ∨ w.value? key = none)
    (hmade : c'.made.isSome = true → c.made.isSome = true ∨ c.works = true)
    (hsucceeded : c'.succeeded = true → c.succeeded = true ∨ c.works = true) :
    Flying host key start w' (c' :: cs) := by
  have hself := List.mem_cons_self (a := c) (l := cs)
  refine ⟨horderly, ?_, ?_, ?_, ?_, ?_, ?_⟩
  · intro d hd
    rcases List.mem_cons.mp hd with rfl | hd
    · exact hsound
    · exact h.sound d (List.mem_cons_of_mem _ hd)
  · intro value hs
    rcases hhere with hsame | hw
    · rw [hsame]
      exact h.kept value hs
    · rw [h.needed c hself hk (Or.inl hw)] at hs
      cases hs
  · intro d hd hdk value hv
    rcases List.mem_cons.mp hd with rfl | hd
    · exact (hvalue value hv).1
    · have hold := h.received d (List.mem_cons_of_mem _ hd) hdk value hv
      rcases hhere with hsame | hw
      · rw [hsame]
        exact hold
      · rw [h.alone c hself hk hw d (List.mem_cons_of_mem _ hd) hdk] at hv
        cases hv
  · -- the one that works and the one that may have got a value: either can be the caller
    intro x hx hxk hw y hy hyk
    rcases List.mem_cons.mp hx with rfl | hxs
    · rcases List.mem_cons.mp hy with rfl | hys
      · revert hw
        unfold Caller.works Caller.value?
        cases y.task <;> simp
      · rcases hworks hw with hw | hnone
        · exact h.alone c hself hk hw y (List.mem_cons_of_mem _ hys) hyk
        · exact h.unserved hnone (List.mem_cons_of_mem _ hys) hyk
    · rcases List.mem_cons.mp hy with rfl | hys
      · cases hv : y.value? with
        | none => rfl
        | some value =>
          rcases (hvalue value hv).2 with hin | hold
          · rw [h.idle hk hin hxs hxk] at hw
            cases hw
          · rw [h.alone x (List.mem_cons_of_mem _ hxs) hxk hw c hself hk] at hold
            cases hold
      · exact h.alone x (List.mem_cons_of_mem _ hxs) hxk hw y (List.mem_cons_of_mem _ hys) hyk
  · intro d hd hdk hd'
    rcases List.mem_cons.mp hd with rfl | hd
    · have hfirst : c.made.isSome = true ∨ c.works = true ∨ w.value? key = none := by
        rcases hd' with hw | hm
        · exact Or.inr (hworks hw)
        · exact (hmade hm).imp_right Or.inl
      rcases hfirst with hm | hw | hnone
      · exact h.needed c hself hk (Or.inr hm)
      · exact h.needed c hself hk (Or.inl hw)
      · exact h.start_eq_none hnone
    · exact h.needed d (List.mem_cons_of_mem _ hd) hdk hd'
  · have hold := h.once
    rw [List.countP_cons] at hold ⊢
    cases hs : c'.succeeded with
    | false => simp; omega
    | true =>
      rcases hsucceeded hs with hs' | hw
      · simpa [hkey, hk, hs'] using hold
      · rw [h.none_succeeded hk hw]
        split <;> omega

theorem turn (h : Flying host key start w (c :: cs)) (ht : c.Turn host invoke w w' c') :
    Flying host key start w' (c' :: cs) := by
  have hsound := h.sound c (List.mem_cons_self ..)
  have hsound' := ht.sound hsound
  have horderly := ht.orderly h.orderly
  have hkey := ht.key
  have helse := ht.elsewhere key
  by_cases hk : c.key = key
  · have hadvance := h.advance hk horderly hkey hsound' (helse.imp_right And.right)
    cases ht with
    | refuse hp ha =>
      refine hadvance ?_ ?_ Or.inl Or.inl
      · intro value hv
        cases hv
      · intro hw
        cases hw
    | pass hpass hin hout =>
      refine hadvance ?_ Or.inl Or.inl Or.inl
      intro value hv
      exact ⟨h.received c (List.mem_cons_self ..) hk value hv, Or.inr hv⟩
    | @read _ _ slot retries found hp htask hl hread =>
      obtain ⟨rfl, hkeeps⟩ := Act.lookup_live hl hread
      subst hk
      refine hadvance ?_ ?_ Or.inl Or.inl
      · intro value hv
        refine ⟨?_, Or.inl (by rw [hp]; rfl)⟩
        rw [(hkeeps c.key).same]
        cases hf : w.value? c.key with
        | none =>
          rw [hf] at hv
          cases hv
        | some found =>
          rw [hf] at hv
          cases hv
          rfl
      · intro hw
        cases hf : w.value? c.key with
        | none => exact Or.inr rfl
        | some found =>
          rw [hf] at hw
          cases hw
    | make outcome htask =>
      have hworks := Caller.works_of_missing htask
      refine hadvance ?_ (fun _ => Or.inl hworks) (fun _ => Or.inr hworks) fun _ => Or.inr hworks
      intro value hv
      rcases outcome with _ | _ | _ <;> cases hv
    | @store _ _ value policy replaced htask hplace =>
      have hworks := Caller.works_of_holding htask
      refine hadvance ?_ (fun _ => Or.inl hworks) Or.inl Or.inl
      intro v hv
      cases hv
      exact ⟨by rw [(Act.place_stores hplace).2, if_pos hk.symm], Or.inl (hsound.inside hworks)⟩
  · exact h.aside hk horderly hkey hsound' (helse.resolve_right fun hr => hk hr.1.symm)

theorem others (h : Flying host key start w cs) (ho : w.Spares key w') :
    Flying host key start w' cs := by
  refine ⟨?_, h.sound, ?_, ?_, h.alone, h.needed, h.once⟩
  · rw [ho.admission]
    exact h.orderly
  · intro value hs
    exact ho.kept value (h.kept value hs)
  · intro c hc hk value hv
    exact ho.kept value (h.received c hc hk value hv)

theorem step {cr cr' : Crowd ν η μ} (h : Flying host key start cr.world cr.callers)
    (hs : Crowd.Step host invoke (World.Spares key) cr cr') :
    Flying host key start cr'.world cr'.callers := by
  cases hs with
  | turn pre post ht => exact ((h.perm List.perm_middle).turn ht).perm List.perm_middle.symm
  | others hw => exact h.others hw

theorem steps {cr cr' : Crowd ν η μ} (h : Flying host key start cr.world cr.callers)
    (hs : Crowd.Steps host invoke (World.Spares key) cr cr') :
    Flying host key start cr'.world cr'.callers := by
  induction hs with
  | refl => exact h
  | tail _ hstep ih => exact ih.step hstep

theorem coming (host : Host ν η μ) (h : Orderly w.cache.admission []) (key : Key)
    (keys : List Key) : Flying host key (w.value? key) w (keys.map Caller.coming) := by
  have hnew : ∀ c ∈ keys.map (Caller.coming (ν := ν)), ∃ key, c = .coming key := by
    intro c hc
    obtain ⟨key, -, rfl⟩ := List.mem_map.mp hc
    exact ⟨key, rfl⟩
  refine ⟨?_, ?_, fun _ hs => hs, ?_, ?_, ?_, ?_⟩
  · have horderly := h.outside keys
    unfold places
    rwa [List.map_map]
  · intro c hc
    obtain ⟨key, rfl⟩ := hnew c hc
    exact .coming
  · intro c hc _ value hv
    obtain ⟨key, rfl⟩ := hnew c hc
    cases hv
  · intro c hc _ hw
    obtain ⟨key, rfl⟩ := hnew c hc
    cases hw
  · intro c hc _ hw
    obtain ⟨key, rfl⟩ := hnew c hc
    rcases hw with hw | hw <;> cases hw
  · have hnone : ((keys.map (Caller.coming (ν := ν))).countP fun c =>
        c.key = key && c.succeeded) = 0 := by
      refine List.countP_eq_zero.mpr ?_
      intro c hc
      obtain ⟨key, rfl⟩ := hnew c hc
      simp [Caller.coming, Caller.succeeded]
    omega

end Flying

/-! ## Callers by themselves -/

variable (host) in
/-- Nobody else stores anything under the key: what is stored was so in the beginning or one of the
callers stored it, and as nothing is stored where one of them works nothing will be replaced. -/
structure Undisturbed (key : Key) (start : Option ν) (w : World ν η μ) (cs : List (Caller ν)) :
    Prop where
  flying : Flying host key start w cs
  sourced : ∀ value, w.value? key = some value →
    start = some value ∨ ∃ c ∈ cs, c.key = key ∧ c.stored = some value
  vacant : ∀ c ∈ cs, c.key = key → c.works = true → w.value? key = none

namespace Undisturbed

variable {key : Key} {start : Option ν} {w w' : World ν η μ} {c c' : Caller ν}
  {cs ds : List (Caller ν)}

theorem perm (h : Undisturbed host key start w cs) (hp : cs.Perm ds) :
    Undisturbed host key start w ds := by
  refine ⟨h.flying.perm hp, ?_, ?_⟩
  · intro value hv
    refine (h.sourced value hv).imp_right ?_
    rintro ⟨c, hc, hrest⟩
    exact ⟨c, hp.mem_iff.mp hc, hrest⟩
  · intro c hc
    exact h.vacant c (hp.mem_iff.mpr hc)

theorem turn (h : Undisturbed host key start w (c :: cs)) (ht : c.Turn host invoke w w' c') :
    Undisturbed host key start w' (c' :: cs) := by
  have hsound := h.flying.sound c (List.mem_cons_self ..)
  obtain ⟨hstored, hvalue⟩ := ht.sources hsound
  refine ⟨h.flying.turn ht, ?_, ?_⟩
  · intro value hv
    rcases hvalue key value hv with hold | ⟨hk, hs⟩
    · refine (h.sourced value hold).imp_right ?_
      rintro ⟨d, hd, hk, hs⟩
      rcases List.mem_cons.mp hd with rfl | hd
      · exact ⟨c', List.mem_cons_self .., ht.key.trans hk, hstored value hs⟩
      · exact ⟨d, List.mem_cons_of_mem _ hd, hk, hs⟩
    · exact Or.inr ⟨c', List.mem_cons_self .., ht.key.trans hk.symm, hs⟩
  · intro d hd hk hw
    rcases List.mem_cons.mp hd with rfl | hd
    · have hck := ht.key.symm.trans hk
      rw [← hk]
      exact ht.vacant (fun hworks => hck ▸ h.vacant c (List.mem_cons_self ..) hck hworks) hw
    · rcases ht.elsewhere key with hsame | ⟨hck, hworks⟩
      · rw [hsame]
        exact h.vacant d (List.mem_cons_of_mem _ hd) hk hw
      · rw [h.flying.idle hck.symm (hsound.inside hworks) hd hk] at hw
        cases hw

theorem others (h : Undisturbed host key start w cs) (ho : w.Preserves key w') :
    Undisturbed host key start w' cs := by
  refine ⟨h.flying.others ho.spares, ?_, ?_⟩
  · rw [ho.same]
    exact h.sourced
  · rw [ho.same]
    exact h.vacant

theorem step {cr cr' : Crowd ν η μ} (h : Undisturbed host key start cr.world cr.callers)
    (hs : Crowd.Step host invoke (World.Preserves key) cr cr') :
    Undisturbed host key start cr'.world cr'.callers := by
  cases hs with
  | turn pre post ht => exact ((h.perm List.perm_middle).turn ht).perm List.perm_middle.symm
  | others hw => exact h.others hw

theorem steps {cr cr' : Crowd ν η μ} (h : Undisturbed host key start cr.world cr.callers)
    (hs : Crowd.Steps host invoke (World.Preserves key) cr cr') :
    Undisturbed host key start cr'.world cr'.callers := by
  induction hs with
  | refl => exact h
  | tail _ hstep ih => exact ih.step hstep

theorem coming (host : Host ν η μ) (h : Orderly w.cache.admission []) (key : Key) (n : Nat) :
    Undisturbed host key (w.value? key) w (List.replicate n (.coming key)) := by
  have hflying := Flying.coming host h key (List.replicate n key)
  rw [List.map_replicate] at hflying
  refine ⟨hflying, fun _ hv => Or.inl hv, ?_⟩
  intro c hc _ hw
  rw [List.eq_of_mem_replicate hc] at hw
  cases hw

end Undisturbed

theorem Crowd.Steps.keys {others : World ν η μ → World ν η μ → Prop} {cr cr' : Crowd ν η μ}
    (h : Crowd.Steps host invoke others cr cr') :
    cr'.callers.map (·.key) = cr.callers.map (·.key) := by
  induction h with
  | refl => rfl
  | tail _ hstep ih =>
    rw [← ih]
    cases hstep with
    | turn pre post ht => simp [ht.key]
    | others => rfl

theorem Crowd.Steps.of_replicate {others : World ν η μ → World ν η μ → Prop} {w : World ν η μ}
    {n : Nat} {key : Key} {cr : Crowd ν η μ}
    (h : Crowd.Steps host invoke others ⟨w, List.replicate n (.coming key)⟩ cr) :
    cr.callers.length = n ∧ ∀ c ∈ cr.callers, c.key = key := by
  have hkeys := h.keys
  rw [List.map_replicate] at hkeys
  obtain ⟨hlength, hall⟩ := List.eq_replicate_iff.mp hkeys
  rw [List.length_map] at hlength
  exact ⟨hlength, fun c hc => hall c.key (List.mem_map_of_mem hc)⟩

/-- The caller is gone, and its factory made this value if it was called. -/
def Caller.Over (value : ν) (c : Caller ν) : Prop :=
  c.place = .gone ∧ ∀ outcome, c.made = some outcome → outcome = .ok (.ok value)

/-- What everybody gets who fetches the key, if this is stored under it and that is what the
factories make. -/
def Host.awards (host : Host ν η μ) (key : Key) (stored : Option ν) (value : ν) : Received ν :=
  if host.accepts key then .ok (.value (stored.getD value))
  else .ok (.refused (.error (.forKey key)))

theorem Caller.Sound.of_over {c : Caller ν} {value : ν} (h : c.Sound host) (ho : c.Over value) :
    (host.accepts c.key = true ∧ ∃ v, c.task = .done (.ok (.value v))) ∨
      (host.accepts c.key = false ∧ c.task = .done (.ok (.refused (.error (.forKey c.key)))) ∧
        c.made = none) := by
  obtain ⟨hgone, hmade⟩ := ho
  cases h with
  | coming => cases hgone
  | refused ha => exact Or.inr ⟨ha, rfl, rfl⟩
  | unread _ hp =>
    cases hgone
    cases hp
  | missing => cases hgone
  | holding => cases hgone
  | stored ha => exact Or.inl ⟨ha, _, rfl⟩
  | found ha => exact Or.inl ⟨ha, _, rfl⟩
  | failed _ _ hf =>
    rw [hmade _ rfl] at hf
    cases hf

/-- What a caller stored is what its factory made. -/
theorem Caller.Sound.over_of_stored {c : Caller ν} {value v : ν} (h : c.Sound host)
    (hs : c.stored = some v) (ho : c.Over value) : v = value ∧ c.made.isSome = true := by
  cases h with
  | stored =>
    cases hs
    cases ho.2 _ rfl
    exact ⟨rfl, rfl⟩
  | _ => cases hs

namespace Undisturbed

variable {start : Option ν} {cr : Crowd ν η μ} {key : Key} {value : ν}

theorem refused (h : Undisturbed host key start cr.world cr.callers)
    (hkeys : ∀ c ∈ cr.callers, c.key = key) (ha : host.accepts key = false)
    (ho : ∀ c ∈ cr.callers, c.Over value) : ∀ c ∈ cr.callers,
      c.task = .done (.ok (.refused (.error (.forKey key)))) ∧ c.made = none := by
  intro c hc
  have hend := (h.flying.sound c hc).of_over (ho c hc)
  rw [hkeys c hc, ha] at hend
  exact (hend.resolve_left fun hl => Bool.noConfusion hl.1).2

theorem served (h : Undisturbed host key start cr.world cr.callers)
    (hkeys : ∀ c ∈ cr.callers, c.key = key) (ha : host.accepts key = true)
    (ho : ∀ c ∈ cr.callers, c.Over value) : ∀ c ∈ cr.callers,
      c.task = .done (.ok (.value (start.getD value))) ∧ (cr.world.value? key).isSome := by
  intro c hc
  have hend := (h.flying.sound c hc).of_over (ho c hc)
  rw [hkeys c hc, ha] at hend
  obtain ⟨v, htask⟩ := (hend.resolve_right fun hr => Bool.noConfusion hr.1).2
  have hv := h.flying.received c hc (hkeys c hc) v (Caller.value?_of_done htask)
  have hvalue : v = start.getD value := by
    cases hst : start with
    | some u =>
      rw [h.flying.kept u hst] at hv
      cases hv
      rfl
    | none =>
      rcases h.sourced v hv with hold | ⟨d, hd, -, hds⟩
      · rw [hst] at hold
        cases hold
      · exact ((h.flying.sound d hd).over_of_stored hds (ho d hd)).1
  exact ⟨by rw [htask, hvalue], by rw [hv]; rfl⟩

/-- As many factories were called as had to be. -/
theorem called (h : Undisturbed host key start cr.world cr.callers)
    (hkeys : ∀ c ∈ cr.callers, c.key = key) (ha : host.accepts key = true)
    (ho : ∀ c ∈ cr.callers, c.Over value) : cr.callers.countP (·.made.isSome) =
      if start.isNone then min cr.callers.length 1 else 0 := by
  have hone : cr.callers.countP (·.made.isSome) ≤ 1 := by
    refine Nat.le_trans (List.countP_mono_left ?_) h.flying.once
    intro c hc hm
    obtain ⟨outcome, hout⟩ := Option.isSome_iff_exists.mp hm
    have hsucc : c.succeeded = true := by
      unfold Caller.succeeded
      rw [hout, (ho c hc).2 outcome hout]
      rfl
    simp [hkeys c hc, hsucc]
  cases hst : start with
  | some u =>
    refine List.countP_eq_zero.mpr ?_
    intro c hc hm
    have hnone := h.flying.needed c hc (hkeys c hc) (Or.inr hm)
    rw [hst] at hnone
    cases hnone
  | none =>
    cases hcs : cr.callers with
    | nil => rfl
    | cons c cs =>
      have hserved := (h.served hkeys ha ho c (hcs ▸ List.mem_cons_self ..)).2
      obtain ⟨v, hv⟩ := Option.isSome_iff_exists.mp hserved
      -- what is stored was not there in the beginning, so somebody had it made
      rcases h.sourced v hv with hold | ⟨d, hd, -, hds⟩
      · rw [hst] at hold
        cases hold
      · have hpos : 0 < cr.callers.countP (·.made.isSome) :=
          List.countP_pos_iff.mpr ⟨d, hd, ((h.flying.sound d hd).over_of_stored hds (ho d hd)).2⟩
        rw [hcs] at hpos hone
        simp only [Option.isNone_none, if_true, List.length_cons]
        omega

/-- All callers get what was stored when they came, or else the value that the factory of one of
them made, or else the same refusal. -/
theorem awarded (h : Undisturbed host key start cr.world cr.callers)
    (hkeys : ∀ c ∈ cr.callers, c.key = key) (ho : ∀ c ∈ cr.callers, c.Over value) :
    (∀ c ∈ cr.callers, c.task = .done (host.awards key start value)) ∧
      cr.callers.countP (·.made.isSome) =
        if host.accepts key && start.isNone then min cr.callers.length 1 else 0 := by
  unfold Host.awards
  cases ha : host.accepts key with
  | false =>
    refine ⟨fun c hc => (h.refused hkeys ha ho c hc).1, List.countP_eq_zero.mpr ?_⟩
    intro c hc hm
    rw [(h.refused hkeys ha ho c hc).2] at hm
    cases hm
  | true => exact ⟨fun c hc => (h.served hkeys ha ho c hc).1, h.called hkeys ha ho⟩

end Undisturbed

namespace Act

variable {w v : World ν η μ} {key : Key} {factory : η} {value : ν} {m n : Nat}

variable (host invoke) in
/-- Whenever one of these callers comes to read, what is stored is not expired. -/
def ReadsLive (key : Key) (factory : η) (options : Options η) (retries : Nat) :
    Nat → World ν η μ → Prop
  | 0, _ => True
  | callers + 1, w => w.Live host key ∧ ∀ f v,
      fetch host invoke key factory options retries w = .ok f v →
        ReadsLive key factory options retries callers v

/-- A race lets its callers fetch one after another, and that is a schedule, too. -/
theorem race_turns (hi : Considerate invoke key factory (· = .ok (.ok value)))
    (hw : Orderly w.cache.admission []) (policy : Option (Policy η)) (retries : Nat)
    (hl : ReadsLive host invoke key factory ⟨policy, false⟩ (retries + 1) m v)
    (pre : List (Caller ν)) (hpre : ∀ c ∈ pre, c.Over value)
    (h : Crowd.Steps host invoke (World.Preserves key) ⟨w, List.replicate n (.coming key)⟩
      ⟨v, pre ++ List.replicate m (.coming key)⟩) :
    (race host invoke key factory ⟨policy, false⟩ (retries + 1) m).Returns v fun results w' =>
      ∃ cs, Crowd.Steps host invoke (World.Preserves key) ⟨w, List.replicate n (.coming key)⟩
        ⟨w', cs⟩ ∧ (∀ c ∈ cs, c.Over value) ∧
        cs.map (·.task) = pre.map (·.task) ++ results.map fun f => .done (.ok f) := by
  induction m generalizing v pre with
  | zero => exact .pure ⟨pre, by simpa using h, hpre, by simp⟩
  | succ m ih =>
    have hflying := ((Undisturbed.coming host hw key n).steps h).flying
    have hadmits : v.cache.admission.admits key = true := by
      refine hflying.orderly.admits ?_
      intro u hu _
      obtain ⟨c, hc, rfl⟩ := List.mem_map.mp hu
      rcases List.mem_append.mp hc with hc | hc
      · show c.place.isInside = false
        rw [(hpre c hc).1]
        rfl
      · rw [List.eq_of_mem_replicate hc]
        rfl
    have hfetch := fetch_turns pre (List.replicate m (.coming key)) hi hl.1 hadmits policy retries h
    have hreturns : (fetch host invoke key factory ⟨policy, false⟩ (retries + 1)).Returns v
        fun f w' => ReadsLive host invoke key factory ⟨policy, false⟩ (retries + 1) m w' ∧
          ∃ c, c.Over value ∧ c.task = .done (.ok f) ∧
            Crowd.Steps host invoke (World.Preserves key) ⟨w, List.replicate n (.coming key)⟩
              ⟨w', pre ++ c :: List.replicate m (.coming key)⟩ := by
      cases hx : fetch host invoke key factory ⟨policy, false⟩ (retries + 1) v with
      | ok f w' =>
        obtain ⟨received, made, stored, hr, hmade, hsteps⟩ := hfetch.of_ok hx
        cases hr
        exact ⟨f, w', hx, hl.2 f w' hx, _, ⟨rfl, hmade⟩, rfl, hsteps⟩
      | error e w' =>
        obtain ⟨received, made, stored, hr, hmade, hsteps⟩ := hfetch.of_error hx
        have hsound := ((Undisturbed.coming host hw key n).steps hsteps).flying.sound _
          (List.mem_append_right pre (List.mem_cons_self ..))
        -- no factory panics, and so no fetch does
        cases e with
        | panic message =>
          cases hr
          rcases hsound.of_over ⟨rfl, hmade⟩ with ⟨-, u, htask⟩ | ⟨-, htask, -⟩ <;> cases htask
        | exhausted => cases hr
    unfold race
    refine .bind hreturns ?_
    rintro f w1 ⟨hlive, c, hover, htask, hsteps⟩
    refine .bind (ih hlive (pre ++ [c]) ?_ ?_) ?_
    · intro d hd
      rcases List.mem_append.mp hd with hd | hd
      · exact hpre d hd
      · rw [List.mem_singleton.mp hd]
        exact hover
    · simpa using hsteps
    · rintro fs w2 ⟨cs, hsteps', hovers, htasks⟩
      refine .pure ⟨cs, hsteps', hovers, ?_⟩
      rw [htasks]
      simp [htask]

/-- So a race has the results that every other schedule has. -/
theorem race_awards (hi : Considerate invoke key factory (· = .ok (.ok value)))
    (hw : Orderly w.cache.admission []) (policy : Option (Policy η)) (retries : Nat)
    (hl : ReadsLive host invoke key factory ⟨policy, false⟩ (retries + 1) n w) :
    (race host invoke key factory ⟨policy, false⟩ (retries + 1) n).Returns w fun results w' =>
      results.map Except.ok = List.replicate n (host.awards key (w.value? key) value) ∧
      ∃ cs, Crowd.Steps host invoke (World.Preserves key) ⟨w, List.replicate n (.coming key)⟩
        ⟨w', cs⟩ ∧ (∀ c ∈ cs, c.Over value) ∧
        cs.map (·.task) = results.map fun f => .done (.ok f) := by
  refine (race_turns hi hw policy retries hl [] (by simp) .refl).mono ?_
  rintro results w' ⟨cs, hsteps, hover, htasks⟩
  obtain ⟨hlength, hkeys⟩ := hsteps.of_replicate
  have hall := ((Undisturbed.coming host hw key n).steps hsteps).awarded hkeys hover
  have hcount := congrArg List.length htasks
  refine ⟨List.eq_replicate_iff.mpr ⟨?_, ?_⟩, cs, hsteps, hover, htasks⟩
  · simpa [hlength] using hcount.symm
  · intro received hr
    obtain ⟨f, hf, rfl⟩ := List.mem_map.mp hr
    have hmem : Progress.done (Except.ok f) ∈ cs.map (·.task) := by
      rw [htasks]
      exact List.mem_map_of_mem hf
    obtain ⟨c, hc, htask⟩ := List.mem_map.mp hmem
    have hdone := (hall.1 c hc).symm.trans htask
    exact (Progress.done.inj hdone).symm

end Act

theorem Reachable.orderly {settings : Settings η} {hosting : Hosting} {w : World ν η μ}
    (h : Reachable host settings hosting w) : Orderly w.cache.admission [] := by
  have hs := h.sound.1
  rw [h.calls] at hs
  exact .of_held hs.admission

/-! ## A flight -/

/-- One slot, and a caller inside. -/
def Admission.busy (references : Nat) : Admission :=
  ⟨.put .empty "k" 0, .put .empty 0 ⟨references, true⟩, 1⟩

namespace World

def quiet : World Nat String Unit := .fresh .keeping .task .zero ()

def reading (w : World Nat String Unit) : World Nat String Unit :=
  (Act.lookup .reentrant (Act.call .reentrant 1) .full "k" 1).after (w.withAdmission (.busy 3))

def supplied : World Nat String Unit := quiet.reading.reading.placed "k" 3 none

end World

namespace Caller

def failing : Caller Nat :=
  ⟨"k", .gone, .done (.ok (.refused (.factoryFailed "no"))), some (.ok (.error "no")), none⟩

def supplying (place : Place) : Caller Nat :=
  ⟨"k", place, .done (.ok (.value 3)), some (.ok (.ok 3)), some 3⟩

def supplied : Caller Nat := ⟨"k", .gone, .done (.ok (.value 3)), none, none⟩

end Caller

/-- What three callers come to. -/
def Crowd.Flown : Crowd Nat String Unit → Prop :=
  Crowd.Steps .reentrant (Act.call .reentrant 1) (World.Spares "k")
    ⟨.quiet, ["k", "k", "k"].map .coming⟩

/-- The first one's factory fails while the second one waits. -/
theorem flown_failing : Crowd.Flown ⟨World.quiet.reading.withAdmission (.busy 3),
    [.failing, ⟨"k", .inside 0, .unread, none, none⟩, .coming "k"]⟩ := by
  have h0 : Crowd.Flown ⟨.quiet, ["k", "k", "k"].map .coming⟩ := .refl
  have h1 := h0.turn [] [_, _] (.pass (.enter _) (fun _ => rfl) nofun)
  have h2 := h1.turn [] [_, _] (.pass (.lock rfl) nofun nofun)
  have h3 : Crowd.Flown ⟨World.quiet.reading,
      [⟨"k", .inside 0, .afterRead none, none, none⟩, .coming "k", .coming "k"]⟩ :=
    h2.turn [] [_, _] (.read 0 rfl rfl (.of_vacant rfl) rfl)
  have h4 := h3.turn [_] [_] (.pass (.enter _) (fun _ => rfl) nofun)
  have h5 := h4.turn [] [_, _] (.make (.ok (.error "no")) rfl)
  have h6 := h5.turn [] [_, _] (.pass (.unlock _ _) nofun fun _ _ => ⟨_, rfl⟩)
  have h7 := h6.turn [_] [_] (.pass (.lock rfl) nofun nofun)
  have h8 := h7.turn [] [_, _] (.pass (.retire _ _) nofun nofun)
  exact h8.turn [] [_, _] (.pass (.leave _ _) nofun nofun)

/-- The second one's factory does not, and takes the slot off the directory. -/
theorem flown_supplying : Crowd.Flown
    ⟨World.supplied.withAdmission ⟨.empty, .put .empty 0 ⟨1, false⟩, 1⟩,
      [.failing, .supplying (.retired 0), .coming "k"]⟩ := by
  have h1 : Crowd.Flown ⟨World.quiet.reading.reading,
      [.failing, ⟨"k", .inside 0, .afterRead none, none, none⟩, .coming "k"]⟩ :=
    flown_failing.turn [_] [_] (.read 0 rfl rfl (.of_vacant rfl) rfl)
  have h2 := h1.turn [_] [_] (.make (.ok (.ok 3)) rfl)
  have h3 : Crowd.Flown ⟨.supplied, [.failing, .supplying (.inside 0), .coming "k"]⟩ :=
    h2.turn [_] [_] (.store rfl (Act.place_eq _ _ _ none))
  have h4 := h3.turn [_] [_] (.pass (.unlock _ _) nofun fun _ _ => ⟨_, rfl⟩)
  exact h4.turn [_] [_] (.pass (.retire _ _) nofun nofun)

/-- The third one has a slot made anew while the second one still refers to the old one. -/
theorem flown_supplied : ∃ w, Crowd.Flown ⟨w, [.failing, .supplying .gone, .supplied]⟩ := by
  have h1 := flown_supplying.turn [_, _] [] (.pass (.enter _) (fun _ => rfl) nofun)
  have h2 := h1.turn [_, _] [] (.pass (.lock rfl) nofun nofun)
  have h3 := h2.turn [_] [_] (.pass (.leave _ _) nofun nofun)
  have h4 := h3.turn [_, _] [] (.read 0 rfl rfl (by rintro e ⟨⟩; exact ⟨_, _, rfl, rfl⟩) rfl)
  have h5 := h4.turn [_, _] [] (.pass (.unlock _ _) nofun fun _ _ => ⟨_, rfl⟩)
  have h6 := h5.turn [_, _] [] (.pass (.retire _ _) nofun nofun)
  exact ⟨_, h6.turn [_, _] [] (.pass (.leave _ _) nofun nofun)⟩

/-- Fetches fly single. Whatever callers come to a cache where nobody is inside, and in whichever
order their steps are taken while nothing that is stored under a key is taken away or replaced by
others and no entry is found expired: at every moment one caller of the key is inside at most; one
factory at most succeeds, and none is called if something was stored; a caller whose factory fails
gets its failure and stores nothing; and whoever gets a value gets the one that is stored. If
callers of one key are by themselves, nothing is stored while one of them works, and if every
factory would make the same value then in the end each of them gets the same in every order, and as
many factories were called. A fetch that the engine makes is one caller's steps in such an order, and
a race is all the callers' steps, so that it has the results that every order has. -/
theorem fetches_fly_single {w : World ν η μ} (hw : Orderly w.cache.admission []) :
    (∀ (keys : List Key) key cr,
      Crowd.Steps host invoke (World.Spares key) ⟨w, keys.map Caller.coming⟩ cr →
      (cr.callers.countP fun c => c.key = key && c.place.isInside) ≤ 1 ∧
      (cr.callers.countP fun c => c.key = key && c.succeeded) ≤ 1 ∧
      (∀ value, w.value? key = some value → ∀ c ∈ cr.callers, c.key = key → c.made = none) ∧
      (∀ c ∈ cr.callers, ∀ outcome, c.made = some outcome → outcome.succeeds = false →
        c.task = .done outcome.received ∧ c.stored = none) ∧
      ∀ c ∈ cr.callers, c.key = key → ∀ value, c.task = .done (.ok (.value value)) →
        cr.world.value? key = some value) ∧
    (∀ key n cr,
      Crowd.Steps host invoke (World.Preserves key) ⟨w, List.replicate n (.coming key)⟩ cr →
      (∀ c ∈ cr.callers, c.works = true → cr.world.value? key = none) ∧
      ∀ value, (∀ c ∈ cr.callers, c.Over value) →
        cr.callers.map (·.task) =
          List.replicate n (.done (host.awards key (w.value? key) value)) ∧
        cr.callers.countP (·.made.isSome) =
          if host.accepts key && (w.value? key).isNone then min n 1 else 0) ∧
    (∀ key factory makes, Considerate invoke key factory makes → ∀ (keys : List Key) pre post v,
      Crowd.Steps host invoke (World.Preserves key) ⟨w, keys.map Caller.coming⟩
        ⟨v, pre ++ .coming key :: post⟩ →
      v.Live host key → v.cache.admission.admits key = true → ∀ policy retries,
      (Act.fetch host invoke key factory ⟨policy, false⟩ (retries + 1)).Ends v fun r v' =>
        ∃ received made stored, Act.caught r = .ok received ∧
          (∀ outcome, made = some outcome → makes outcome) ∧
          Crowd.Steps host invoke (World.Preserves key) ⟨w, keys.map Caller.coming⟩
            ⟨v', pre ++ ⟨key, .gone, .done received, made, stored⟩ :: post⟩) ∧
    ∀ key factory value, Considerate invoke key factory (· = .ok (.ok value)) →
      ∀ policy retries n,
      Act.ReadsLive host invoke key factory ⟨policy, false⟩ (retries + 1) n w →
      (Act.race host invoke key factory ⟨policy, false⟩ (retries + 1) n).Returns w fun results v =>
        results.map Except.ok = List.replicate n (host.awards key (w.value? key) value) ∧
        ∃ cs, Crowd.Steps host invoke (World.Preserves key) ⟨w, List.replicate n (.coming key)⟩
          ⟨v, cs⟩ ∧ (∀ c ∈ cs, c.Over value) ∧
          cs.map (·.task) = results.map fun f => .done (.ok f) := by
  refine ⟨?_, ?_, ?_, ?_⟩
  · intro keys key cr hsteps
    have hf := (Flying.coming host hw key keys).steps hsteps
    refine ⟨?_, hf.once, ?_, ?_, ?_⟩
    · have hone := hf.orderly.one_inside key
      unfold places at hone
      rwa [List.countP_map] at hone
    · intro value hv c hc hk
      cases hm : c.made with
      | none => rfl
      | some outcome =>
        have hnone := hf.needed c hc hk (Or.inr (by rw [hm]; rfl))
        rw [hv] at hnone
        cases hnone
    · intro c hc outcome hm hfail
      cases hf.sound c hc with
      | failed =>
        cases hm
        exact ⟨rfl, rfl⟩
      | holding =>
        cases hm
        cases hfail
      | stored =>
        cases hm
        cases hfail
      | _ => cases hm
    · intro c hc hk value ht
      exact hf.received c hc hk value (Caller.value?_of_done ht)
  · intro key n cr hsteps
    obtain ⟨hlength, hkeys⟩ := hsteps.of_replicate
    have hu := (Undisturbed.coming host hw key n).steps hsteps
    refine ⟨fun c hc => hu.vacant c hc (hkeys c hc), ?_⟩
    intro value hover
    obtain ⟨htasks, hcount⟩ := hu.awarded hkeys hover
    rw [hlength] at hcount
    refine ⟨List.eq_replicate_iff.mpr ⟨by rw [List.length_map, hlength], ?_⟩, hcount⟩
    intro task ht
    obtain ⟨c, hc, rfl⟩ := List.mem_map.mp ht
    exact htasks c hc
  · intro key factory makes hi keys pre post v hsteps hl hadmits policy retries
    exact Act.fetch_turns pre post hi hl hadmits policy retries hsteps
  · intro key factory value hi policy retries n hl
    exact Act.race_awards hi hw policy retries hl

/-! ## A race -/

theorem Host.obliging_considerate (depth : Nat) (key : Key) (factory : η) (value : ν) :
    Considerate (Act.call (Host.obliging value : Host ν η μ) depth) key factory
      (· = .ok (.ok value)) where
  factory _ := ⟨.of_entries rfl rfl, _, rfl, rfl⟩
  others c hc _ := by
    cases c with
    | factory => cases hc
    | _ => exact ⟨_, _, rfl, .of_entries rfl rfl⟩

/-- What the first caller stores has no policy, so the others find it live. -/
theorem quiet_reads_live : Act.ReadsLive (.obliging 3) (Act.call (.obliging 3) 1) "k" "make"
    ⟨none, false⟩ 1 3 World.quiet := by
  refine ⟨.of_vacant rfl, fun f v h => ?_⟩
  cases h
  refine ⟨by rintro e ⟨⟩; exact ⟨_, _, rfl, rfl⟩, fun f v h => ?_⟩
  cases h
  refine ⟨by rintro e ⟨⟩; exact ⟨_, _, rfl, rfl⟩, fun f v h => trivial⟩

theorem mingled_fetches_fly_single :
    (∃ w, Crowd.Flown ⟨w, [.failing, .supplying .gone, .supplied]⟩ ∧
      ([Caller.failing, .supplying .gone, .supplied].countP fun c =>
        c.key = "k" && c.succeeded) ≤ 1 ∧ w.value? "k" = some 3) ∧
    (Act.race (.obliging 3) (Act.call (.obliging 3) 1) "k" "make" ⟨none, false⟩ 1 3).Returns
      World.quiet fun results _ => results.map .ok = List.replicate 3 (.ok (.value 3) : Received Nat) := by
  have hbetween : Between .reentrant .keeping .task World.quiet := .fresh .zero ()
  have horderly := (Reachable.between hbetween).orderly
  constructor
  · obtain ⟨w, hflown⟩ := flown_supplied
    obtain ⟨-, honce, -, -, hvalue⟩ := (fetches_fly_single horderly).1 _ "k" _ hflown
    exact ⟨w, hflown, honce, hvalue .supplied (by simp) rfl 3 rfl⟩
  · obtain ⟨-, -, -, hrace⟩ := fetches_fly_single horderly
    exact (hrace "k" "make" 3 (Host.obliging_considerate 1 "k" "make" 3) none 0 3
      quiet_reads_live).mono fun _ _ h => h.1

end ExpiringCache
