import ExpiringCache.Engine.Session
import ExpiringCache.Proofs.Likeness
import ExpiringCache.Proofs.Paths

/-!
# Lockstep

The same work done in two worlds that are alike goes step by step alike: it ends with the same answer or
in the same panic, and leaves worlds that are alike. So nothing that is done later can tell the two
apart, but for the timer, and for the counters if they began different.
-/

namespace ExpiringCache

variable {ν η μ α α' β β' : Type}

/-- What an operation of a host sees is the same in worlds that are alike. -/
def Operation.Discreet (s s' : Stats) : Operation ν η → Prop
  | .statistics => s' = s
  | .timerRunning => False
  | _ => True

/-- Two pieces of work that begin in `w` and `w'` have ended alike. -/
def Tallies (ρ : Pairing) (s s' : Stats) (w w' : World ν η μ) (R : Pairing → α → α' → Prop) :
    Except Halt α → World ν η μ → Except Halt α' → World ν η μ → Prop
  | .ok a, v, .ok a', v' => ∃ σ, ρ ⊆ σ ∧ v.Alike σ s s' v' ∧ v.calls = w.calls ∧
      v'.calls = w'.calls ∧ R σ a a'
  | .error halt, v, .error halt', v' => halt' = halt ∧ ∃ σ, ρ ⊆ σ ∧ v.Alike σ s s' v' ∧
      v.calls = w.calls ∧ v'.calls = w'.calls
  | _, _, _, _ => False

namespace Act

/-- Two pieces of work go in step. -/
def InStep (ρ : Pairing) (s s' : Stats) (x : Act ν η μ α) (x' : Act ν η μ α') (w w' : World ν η μ)
    (R : Pairing → α → α' → Prop) : Prop :=
  x.Ends w fun r v => x'.Ends w' fun r' v' => Tallies ρ s s' w w' R r v r' v'

abbrev Agree (ρ : Pairing) (s s' : Stats) (x x' : Act ν η μ α) (w w' : World ν η μ) : Prop :=
  InStep ρ s s' x x' w w' fun _ a a' => a' = a

variable {ρ : Pairing} {s s' : Stats} {x : Act ν η μ α} {x' : Act ν η μ α'} {w w' : World ν η μ}
  {R : Pairing → α → α' → Prop} {S : Pairing → β → β' → Prop} {f : α → Act ν η μ β}
  {f' : α' → Act ν η μ β'}

namespace InStep

theorem pure {a : α} {a' : α'} (h : w.Alike ρ s s' w') (hr : R ρ a a') :
    InStep ρ s s' (Pure.pure a) (Pure.pure a') w w' R :=
  ⟨ρ, List.Subset.refl ρ, h, rfl, rfl, hr⟩

theorem throw {halt : Halt} (h : w.Alike ρ s s' w') :
    InStep ρ s s' (MonadExcept.throw halt) (MonadExcept.throw halt) w w' R :=
  ⟨rfl, ρ, List.Subset.refl ρ, h, rfl, rfl⟩

/-- From worlds that the two came to on their ways. -/
theorem since {σ : Pairing} {v v' : World ν η μ} (hs : ρ ⊆ σ) (hc : v.calls = w.calls)
    (hc' : v'.calls = w'.calls) (h : InStep σ s s' x x' v v' R) :
    x.Ends v fun r u => x'.Ends v' fun r' u' => Tallies ρ s s' w w' R r u r' u' := by
  refine Ends.mono h fun r u hx => hx.mono fun r' u' ht => ?_
  match r, r', ht with
  | .ok a, .ok a', ⟨τ, ht, hu, hk, hk', ha⟩ =>
    exact ⟨τ, List.Subset.trans hs ht, hu, hk.trans hc, hk'.trans hc', ha⟩
  | .error _, .error _, ⟨heq, τ, ht, hu, hk, hk'⟩ =>
    exact ⟨heq, τ, List.Subset.trans hs ht, hu, hk.trans hc, hk'.trans hc'⟩

theorem bind (h : InStep ρ s s' x x' w w' R) (hf : ∀ σ v v' a a', ρ ⊆ σ → v.Alike σ s s' v' →
    R σ a a' → InStep σ s s' (f a) (f' a') v v' S) :
    InStep ρ s s' (x >>= f) (x' >>= f') w w' S := by
  apply Ends.bind h
  · intro a v hx
    -- the second run is followed inside the first: what it ended with is known
    obtain ⟨r', ht, hx'⟩ := hx.outcome
    match r', ht with
    | .ok a', ⟨σ, hs, hv, hc, hc', ha⟩ =>
      refine Ends.mono (since hs hc hc' (hf σ v _ a a' hs hv ha)) fun r u hu => ?_
      refine hx'.bind ?_ ?_
      · rintro b v' ⟨hb, rfl⟩
        cases hb
        exact hu
      · rintro e v' ⟨he, -⟩
        cases he
  · intro e v hx
    obtain ⟨r', ht, hx'⟩ := hx.outcome
    match r', ht with
    | .error e', ht =>
      apply hx'.bind
      · rintro b v' ⟨hb, -⟩
        cases hb
      · rintro e v' ⟨he, rfl⟩
        cases he
        exact ht

theorem step {σ : Pairing} {t t' : World ν η μ → World ν η μ} {g : Unit → Act ν η μ β}
    {g' : Unit → Act ν η μ β'} (hs : ρ ⊆ σ) (hc : (t w).calls = w.calls) (hc' : (t' w').calls = w'.calls)
    (h : InStep σ s s' (g ()) (g' ()) (t w) (t' w') S) :
    InStep ρ s s' (modify t >>= g) (modify t' >>= g') w w' S := by
  show (g ()).Ends (t w) fun r v => (g' ()).Ends (t' w') fun r' v' => Tallies ρ s s' w w' S r v r' v'
  exact since hs hc hc' h

theorem note {r r' : Record ν η} {g : Unit → Act ν η μ β} {g' : Unit → Act ν η μ β'}
    (h : InStep ρ s s' (g ()) (g' ()) (w.note r) (w'.note r') S) :
    InStep ρ s s' (Act.note r >>= g) (Act.note r' >>= g') w w' S :=
  step (List.Subset.refl ρ) rfl rfl h

theorem change {σ : Pairing} {t t' : Cache ν η → Cache ν η} {g : Unit → Act ν η μ β}
    {g' : Unit → Act ν η μ β'} (hs : ρ ⊆ σ)
    (h : InStep σ s s' (g ()) (g' ()) (w.change t) (w'.change t') S) :
    InStep ρ s s' (Act.change t >>= g) (Act.change t' >>= g') w w' S :=
  step hs rfl rfl h

theorem cache {g : Cache ν η → Act ν η μ β} {g' : Cache ν η → Act ν η μ β'}
    (h : InStep ρ s s' (g w.cache) (g' w'.cache) w w' S) :
    InStep ρ s s' (Act.cache >>= g) (Act.cache >>= g') w w' S := h

theorem now {g : Instant → Act ν η μ β} {g' : Instant → Act ν η μ β'}
    (h : InStep ρ s s' (g w.now) (g' w'.now) w w' S) :
    InStep ρ s s' (Act.now >>= g) (Act.now >>= g') w w' S := h

theorem get {g : World ν η μ → Act ν η μ β} {g' : World ν η μ → Act ν η μ β'}
    (h : InStep ρ s s' (g w) (g' w') w w' S) :
    InStep ρ s s' (MonadState.get >>= g) (MonadState.get >>= g') w w' S := h

theorem bracket {enter leave enter' leave' : World ν η μ → World ν η μ} {a a' : Activity ν η}
    (hc : (enter w).calls = a :: w.calls) (hc' : (enter' w').calls = a' :: w'.calls)
    (hl : ∀ v, (leave v).calls = v.calls.tail) (hl' : ∀ v, (leave' v).calls = v.calls.tail)
    (hleave : ∀ σ v v', ρ ⊆ σ → v.calls = a :: w.calls → v'.calls = a' :: w'.calls →
      v.Alike σ s s' v' → (leave v).Alike σ s s' (leave' v'))
    (h : InStep ρ s s' x x' (enter w) (enter' w') R) :
    InStep ρ s s' (Act.bracket enter leave x) (Act.bracket enter' leave' x') w w' R := by
  refine ends_bracket (Ends.mono h fun r v hx => ends_bracket (hx.mono fun r' v' ht => ?_))
  have outside : ∀ σ, ρ ⊆ σ → v.Alike σ s s' v' → v.calls = (enter w).calls →
      v'.calls = (enter' w').calls → (leave v).Alike σ s s' (leave' v') ∧
        (leave v).calls = w.calls ∧ (leave' v').calls = w'.calls := by
    intro σ hs hv hk hk'
    rw [hc] at hk
    rw [hc'] at hk'
    refine ⟨hleave σ v v' hs hk hk' hv, ?_, ?_⟩
    · rw [hl, hk]
      rfl
    · rw [hl', hk']
      rfl
  match r, r', ht with
  | .ok b, .ok b', ⟨σ, hs, hv, hk, hk', hb⟩ =>
    obtain ⟨h1, h2, h3⟩ := outside σ hs hv hk hk'
    exact ⟨σ, hs, h1, h2, h3, hb⟩
  | .error _, .error _, ⟨heq, σ, hs, hv, hk, hk'⟩ => exact ⟨heq, σ, hs, outside σ hs hv hk hk'⟩

theorem during {a a' : Activity ν η} (hu : a'.unnumbered = a.unnumbered) (ha : a.admitted? = none)
    (ha' : a'.admitted? = none) (h : w.Alike ρ s s' w')
    (hx : ∀ v v' : World ν η μ, v.Alike ρ s s' v' → InStep ρ s s' x x' v v' R) :
    InStep ρ s s' (Act.during a x) (Act.during a' x') w w' R := by
  refine bracket rfl rfl (fun _ => rfl) (fun _ => rfl) ?_ (hx _ _ (h.push hu ha ha'))
  intro σ v v' _ hc hc' hv
  exact hv.pop hc hc' ha ha'

theorem deciding {key : Key} {g g' : Nat} (hg : (g, g') ∈ ρ) (h : w.Alike ρ s s' w')
    (hx : ∀ v v' : World ν η μ, v.Alike ρ s s' v' → InStep ρ s s' x x' v v' R) :
    InStep ρ s s' (Act.deciding key g x) (Act.deciding key g' x') w w' R := by
  have hmark := h.change (h.cache.mark true key hg) rfl rfl
  refine bracket rfl rfl (fun _ => rfl) (fun _ => rfl) ?_ (hx _ _ (hmark.push rfl rfl rfl))
  intro σ v v' hs hc hc' hv
  exact (hv.change (hv.cache.mark false key (hs hg)) rfl rfl).pop hc hc' rfl rfl

theorem holding {key : Key} {acquired acquired' : Admission} {slot slot' : Nat}
    (ha : w.cache.admission.acquire? key = some (acquired, slot))
    (ha' : w'.cache.admission.acquire? key = some (acquired', slot')) (h : w.Alike ρ s s' w')
    (hx : ∀ v v' : World ν η μ, v.Alike ρ s s' v' → InStep ρ s s' x x' v v' R) :
    InStep ρ s s' (Act.holding key acquired slot x) (Act.holding key acquired' slot' x') w w' R := by
  refine bracket rfl rfl (fun _ => rfl) (fun _ => rfl) ?_ (hx _ _ (h.acquire ha ha'))
  intro σ v v' _ hc hc' hv
  exact hv.dismiss hc hc'

theorem attempt {y : Act ν η μ α} (h : Agree ρ s s' x y w w') :
    Agree ρ s s' (Act.attempt x) (Act.attempt y) w w' := by
  refine ends_attempt (Ends.mono h fun r v hx => ends_attempt (hx.mono fun r' v' ht => ?_))
  match r, r', ht with
  | .ok a, .ok _, ⟨σ, hs, hv, hc, hc', rfl⟩ => exact ⟨σ, hs, hv, hc, hc', rfl⟩
  | .error (.panic _), .error _, ⟨rfl, σ, hs, hv, hc, hc'⟩ => exact ⟨σ, hs, hv, hc, hc', rfl⟩
  | .error .exhausted, .error _, ⟨rfl, ht⟩ => exact ⟨rfl, ht⟩

/-! ### Lists -/

variable {K : Pairing → α → α' → Prop} {xs : List α} {xs' : List α'}

theorem foldlM {g : β → α → Act ν η μ β} {g' : β → α' → Act ν η μ β}
    (hK : ∀ σ τ a a', σ ⊆ τ → K σ a a' → K τ a a')
    (hg : ∀ σ v v' b a a', v.Alike σ s s' v' → K σ a a' → Agree σ s s' (g b a) (g' b a') v v')
    (hxs : List.Forall₂ (K ρ) xs xs') (b : β) (h : w.Alike ρ s s' w') :
    Agree ρ s s' (xs.foldlM g b) (xs'.foldlM g' b) w w' := by
  induction xs generalizing ρ xs' w w' b with
  | nil =>
    cases hxs
    exact .pure h rfl
  | cons a xs ih =>
    cases hxs with
    | cons ha hxs =>
      rw [List.foldlM_cons, List.foldlM_cons]
      apply bind (hg ρ w w' b _ _ h ha)
      rintro σ v v' _ c hs hv rfl
      exact ih (hxs.imp fun _ _ => hK ρ σ _ _ hs) c hv

theorem forM {g : α → Act ν η μ Unit} {g' : α' → Act ν η μ Unit}
    (hK : ∀ σ τ a a', σ ⊆ τ → K σ a a' → K τ a a')
    (hg : ∀ σ v v' a a', v.Alike σ s s' v' → K σ a a' → Agree σ s s' (g a) (g' a') v v')
    (hxs : List.Forall₂ (K ρ) xs xs') (h : w.Alike ρ s s' w') :
    Agree ρ s s' (xs.forM g) (xs'.forM g') w w' := by
  induction xs generalizing ρ xs' w w' with
  | nil =>
    cases hxs
    exact .pure h rfl
  | cons a xs ih =>
    cases hxs with
    | cons ha hxs =>
      apply bind (hg ρ w w' _ _ h ha)
      rintro σ v v' _ _ hs hv -
      exact ih (hxs.imp fun _ _ => hK ρ σ _ _ hs) hv

theorem mapM {g : α → Act ν η μ β} (xs : List α)
    (hg : ∀ σ v v' a, v.Alike σ s s' v' → Agree σ s s' (g a) (g a) v v') (h : w.Alike ρ s s' w') :
    Agree ρ s s' (xs.mapM g) (xs.mapM g) w w' := by
  induction xs generalizing ρ w w' with
  | nil =>
    rw [List.mapM_nil]
    exact .pure h rfl
  | cons a xs ih =>
    rw [List.mapM_cons]
    apply bind (hg ρ w w' a h)
    rintro σ v v' _ b hs hv rfl
    apply bind (ih hv)
    rintro τ u u' _ bs ht hu rfl
    exact .pure hu rfl

theorem filterM {p : α → Act ν η μ Bool} {p' : α' → Act ν η μ Bool}
    (hK : ∀ σ τ a a', σ ⊆ τ → K σ a a' → K τ a a')
    (hp : ∀ σ v v' a a', v.Alike σ s s' v' → K σ a a' → Agree σ s s' (p a) (p' a') v v')
    (hxs : List.Forall₂ (K ρ) xs xs') (h : w.Alike ρ s s' w') :
    InStep ρ s s' (xs.filterM p) (xs'.filterM p') w w' fun σ ys ys' => List.Forall₂ (K σ) ys ys' := by
  -- along the accumulator of the loop, which is turned round at its end
  have loop : ∀ (xs : List α) (xs' : List α') (ρ : Pairing) (w w' : World ν η μ) (acc : List α)
      (acc' : List α'), w.Alike ρ s s' w' → List.Forall₂ (K ρ) xs xs' → List.Forall₂ (K ρ) acc acc' →
      InStep ρ s s' (xs.filterAuxM p acc) (xs'.filterAuxM p' acc') w w'
        fun σ ys ys' => List.Forall₂ (K σ) ys ys' := by
    intro xs
    induction xs with
    | nil =>
      intro xs' ρ w w' acc acc' h hxs hacc
      cases hxs
      exact .pure h hacc
    | cons a xs ih =>
      intro xs' ρ w w' acc acc' h hxs hacc
      cases hxs with
      | cons ha hxs =>
        apply bind (hp ρ w w' _ _ h ha)
        rintro σ v v' _ found hs hv rfl
        have hacc := hacc.imp fun _ _ => hK ρ σ _ _ hs
        apply ih _ σ v v' _ _ hv (hxs.imp fun _ _ => hK ρ σ _ _ hs)
        cases found with
        | false => exact hacc
        | true => exact .cons (hK ρ σ _ _ hs ha) hacc
  apply bind (loop xs xs' ρ w w' [] [] h hxs .nil)
  intro σ v v' ys ys' hs hv hys
  exact .pure hv (List.rel_reverse hys)

end InStep

variable {host : Host ν η μ} {invoke : Invoke ν η μ}

theorem consult_agree (predicate : η) (t : Instant) (h : w.Alike ρ s s' w') :
    Agree ρ s s' (consult host predicate t) (consult host predicate t) w w' := by
  show InStep ρ s s' _ _ w w' _
  unfold InStep Ends consult
  rw [h.memory]
  cases host.consult predicate t w.memory with
  | mk answer m =>
    cases answer with
    | ok b => exact ⟨ρ, List.Subset.refl ρ, { h with memory := rfl }, rfl, rfl, rfl⟩
    | error message => exact ⟨rfl, ρ, List.Subset.refl ρ, { h with memory := rfl }, rfl, rfl⟩

theorem expired_agree {e e' : Entry ν η} (he : e.Alike ρ e') (h : w.Alike ρ s s' w') :
    Agree ρ s s' (expired host e) (expired host e') w w' := by
  apply InStep.now
  unfold Entry.expired
  rw [he.policy, h.now]
  cases e.policy with
  | none => exact .pure h rfl
  | some policy =>
    cases policy with
    | custom predicate => exact consult_agree predicate w.now h
    | _ => exact .pure h rfl

section

variable (hi : ∀ (c : Callback ν η) σ v v', v.Alike σ s s' v' → Agree σ s s' (invoke c) (invoke c) v v')

include hi

/-! ## Expiry -/

theorem release_agree {e e' : Entry ν η} (key : Key) (he : e.Alike ρ e') (h : w.Alike ρ s s' w') :
    Agree ρ s s' (release invoke key e) (release invoke key e') w w' := by
  apply InStep.cache
  rw [h.cache.settings]
  cases w.cache.settings.release with
  | none => exact .pure h rfl
  | some handler =>
    refine InStep.during rfl rfl rfl h fun v v' hv => ?_
    rw [he.value]
    exact hi _ ρ v v' hv

theorem releaseIfSet_agree {e e' : Entry ν η} (key : Key) (he : e.Alike ρ e') (h : w.Alike ρ s s' w') :
    Agree ρ s s' (releaseIfSet invoke key e) (releaseIfSet invoke key e') w w' := by
  apply InStep.cache
  rw [h.cache.settings]
  cases w.cache.settings.dispose with
  | true => exact release_agree hi key he h
  | false => exact .pure h rfl

theorem askExpiring_agree {g g' : Nat} (key : Key) (value : ν) (policy : Policy η)
    (h : w.Alike ρ s s' w') :
    Agree ρ s s' (askExpiring invoke g key value policy) (askExpiring invoke g' key value policy) w w' := by
  have h1 := h.note (.offered g key value policy) (.offered g' key value policy)
  refine InStep.note (InStep.cache ?_)
  rw [h1.cache.expiring]
  exact .mapM _ (fun σ v v' handler hv => hi _ σ v v' hv) h1

theorem tellExpired_agree {g g' : Nat} (key : Key) (value : ν) (initial : Disposal)
    (h : w.Alike ρ s s' w') :
    Agree ρ s s' (tellExpired invoke g key value initial) (tellExpired invoke g' key value initial) w w' := by
  have h1 := h.note (.announced g key value initial) (.announced g' key value initial)
  refine InStep.note (InStep.cache ?_)
  rw [h1.cache.expired]
  refine InStep.foldlM (K := fun _ a a' => a' = a) (fun _ _ _ _ _ ha => ha) ?_ ?_ initial h1
  · rintro σ v v' running handler _ hv rfl
    exact hi (.expired _ key value running) σ v v' hv
  · exact List.forall₂_same.mpr fun _ _ => rfl

theorem disposeEvicted_agree {e e' : Entry ν η} (key : Key) (he : e.Alike ρ e') (h : w.Alike ρ s s' w') :
    Agree ρ s s' (disposeEvicted invoke key e) (disposeEvicted invoke key e') w w' := by
  apply InStep.cache
  rw [h.cache.settings, he.value]
  refine InStep.bind (InStep.during rfl rfl rfl h fun v v' hv => tellExpired_agree hi key _ _ hv) ?_
  rintro σ v v' _ final hs hv rfl
  apply InStep.note
  have h1 := hv.note (.disposed e.generation key final) (.disposed e'.generation key final)
  split
  · exact release_agree hi key (he.mono hs) h1
  · exact .pure h1 rfl

omit hi in
theorem candidate?_inStep {g g' : Nat} (key : Key) (hg : (g, g') ∈ ρ) (h : w.Alike ρ s s' w') :
    InStep ρ s s' (candidate? host key g) (candidate? host key g') w w'
      fun σ => Option.Rel fun r r' => r.1.Alike σ r'.1 ∧ r'.2 = r.2 := by
  unfold candidate?
  apply InStep.cache
  generalize w.cache.insertion? key g = found, w'.cache.insertion? key g' = found',
    h.cache.insertion? key hg = hfound
  cases hfound with
  | none => exact .pure h .none
  | @some e e' he =>
    dsimp only
    rw [he.pending, he.policy]
    split
    · apply InStep.bind (expired_agree he h)
      rintro σ v v' _ found hs hv rfl
      cases found with
      | true => exact .pure hv (.some ⟨he.mono hs, rfl⟩)
      | false => exact .pure hv .none
    · exact .pure h .none

omit hi in
theorem commit_inStep {g g' : Nat} (key : Key) (hg : (g, g') ∈ ρ) (h : w.Alike ρ s s' w') :
    InStep ρ s s' (commit host key g) (commit host key g') w w' fun σ => Option.Rel (Entry.Alike σ) := by
  unfold commit
  apply InStep.cache
  generalize w.cache.insertion? key g = found, w'.cache.insertion? key g' = found',
    h.cache.insertion? key hg = hfound
  cases hfound with
  | none => exact .pure h .none
  | @some e e' he =>
    dsimp only
    rw [he.policy]
    cases e.policy with
    | none => exact .pure h .none
    | some policy =>
      apply InStep.bind (expired_agree he h)
      rintro σ v v' _ found hs hv rfl
      cases found with
      | true =>
        have hout := hv.change (hv.cache.takeOut key .expiration) rfl rfl
        refine InStep.change (List.Subset.refl σ) (InStep.note ?_)
        exact .pure (hout.note _ _) (.some (he.mono hs))
      | false => exact .pure hv .none

theorem expire_agree {g g' : Nat} (key : Key) (hg : (g, g') ∈ ρ) (h : w.Alike ρ s s' w') :
    Agree ρ s s' (expire host invoke key g) (expire host invoke key g') w w' := by
  show InStep ρ s s' _ _ w w' _
  unfold expire
  refine InStep.bind (candidate?_inStep key hg h) ?_
  intro σ v v' found found' hs hv hfound
  cases hfound with
  | none => exact .pure hv rfl
  | @some r r' hr =>
    obtain ⟨e, policy⟩ := r
    obtain ⟨e', policy'⟩ := r'
    obtain ⟨he, rfl⟩ := hr
    dsimp only
    rw [he.value]
    apply InStep.bind (InStep.deciding (hs hg) hv fun u u' hu => askExpiring_agree hi key _ _ hu)
    rintro τ u u' _ answers ht hu rfl
    apply InStep.note
    have h1 := hu.note (.decided g key e.value answers) (.decided g' key e.value answers)
    split
    · exact InStep.change (List.Subset.refl τ)
        (.pure (h1.change (h1.cache.count .cancellation) rfl rfl) rfl)
    · apply InStep.bind (commit_inStep key (ht (hs hg)) h1)
      intro υ x x' gone gone' _ hx hgone
      cases hgone with
      | none => exact .pure hx rfl
      | @some old old' hold =>
        apply InStep.bind (disposeEvicted_agree hi key hold hx)
        rintro υ y y' _ _ _ hy -
        exact .pure hy rfl

/-! ## Reads and insertions -/

omit hi in
theorem readEnds_agree (access : Access) (key : Key) (found : Option ν) (h : w.Alike ρ s s' w') :
    Agree ρ s s' (readEnds access key found) (readEnds access key found) w w' := by
  show InStep ρ s s' _ _ w w' _
  unfold readEnds
  have hsteady : Stats.Steady fun s => if found.isSome then s.hit else s.miss := by
    cases found with
    | none => exact Stats.Steady.miss
    | some _ => exact Stats.Steady.hit
  split
  · have hcount := h.change (h.cache.count hsteady) rfl rfl
    exact InStep.change (List.Subset.refl ρ) (InStep.note (.pure (hcount.note _ _) rfl))
  · exact .pure h rfl

theorem lookup_agree (access : Access) (key : Key) (retries : Nat) (h : w.Alike ρ s s' w') :
    Agree ρ s s' (lookup host invoke access key retries) (lookup host invoke access key retries) w w' := by
  induction retries generalizing ρ w w' with
  | zero => exact .throw h
  | succ retries ih =>
    show InStep ρ s s' _ _ w w' _
    unfold lookup
    apply InStep.cache
    generalize w.cache.find? key = found, w'.cache.find? key = found', h.cache.find? key = hfound
    cases hfound with
    | none => exact readEnds_agree access key none h
    | @some e e' he =>
      apply InStep.bind (expired_agree he h)
      rintro σ v v' _ past hs hv rfl
      have he := he.mono hs
      cases past with
      | false =>
        rw [if_pos (show (!false) = true from rfl), if_pos (show (!false) = true from rfl), he.value]
        dsimp only
        split
        · refine InStep.now (InStep.change (List.Subset.refl σ) ?_)
          rw [hv.now]
          exact readEnds_agree access key _ (hv.change (hv.cache.touch v.now key) rfl rfl)
        · exact readEnds_agree access key _ hv
      | true =>
        rw [if_neg (show ¬(!true) = true by decide), if_neg (show ¬(!true) = true by decide), he.pending,
          he.value]
        split
        · exact readEnds_agree access key _ hv
        · apply InStep.bind (expire_agree hi key he.paired hv)
          rintro τ u u' _ fate _ hu rfl
          cases fate with
          | evicted => exact readEnds_agree access key none hu
          | cancelled value => exact readEnds_agree access key (some value) hu
          | stale => exact InStep.note (ih (hu.note _ _))

theorem policyFor_agree (key : Key) (given : Option (Policy η)) (h : w.Alike ρ s s' w') :
    Agree ρ s s' (policyFor invoke key given) (policyFor invoke key given) w w' := by
  cases given with
  | some policy => exact .pure h rfl
  | none =>
    apply InStep.cache
    rw [h.cache.settings]
    cases w.cache.settings.defaultPolicy with
    | none => exact .pure h rfl
    | some handler => exact hi (.defaultPolicy handler key) ρ w w' h

omit hi in
theorem occupied_agree (key : Key) (h : w.Alike ρ s s' w') :
    Agree ρ s s' (occupied host key) (occupied host key) w w' := by
  show InStep ρ s s' _ _ w w' _
  unfold occupied
  apply InStep.cache
  generalize w.cache.find? key = found, w'.cache.find? key = found', h.cache.find? key = hfound
  cases hfound with
  | none => exact .pure h rfl
  | @some e e' he =>
    dsimp only
    rw [he.pending]
    split
    · exact .pure h rfl
    · apply InStep.bind (expired_agree he h)
      rintro σ v v' _ past _ hv rfl
      exact .pure hv rfl

omit hi in
theorem place_inStep (key : Key) (value : ν) (policy : Option (Policy η)) (h : w.Alike ρ s s' w') :
    InStep ρ s s' (place key value policy) (place key value policy) w w'
      fun σ => Option.Rel (Entry.Alike σ) := by
  unfold InStep Ends
  rw [place_eq, place_eq]
  have hmore := List.subset_cons_self (w.cache.nextGeneration, w'.cache.nextGeneration) ρ
  refine ⟨_, hmore, h.placed key value policy, World.calls_placed .., World.calls_placed .., ?_⟩
  generalize w.cache.find? key = found, w'.cache.find? key = found', h.cache.find? key = hfound
  cases hfound with
  | none => exact .none
  | some he => exact .some (he.mono hmore)

theorem store_agree (key : Key) (value : ν) (policy : Option (Policy η)) (h : w.Alike ρ s s' w') :
    Agree ρ s s' (store invoke key value policy) (store invoke key value policy) w w' := by
  have tended : ∀ σ v v' (x y : Act ν η μ Unit), v.Alike σ s s' v' →
      (∀ u u', u.Alike σ s s' u' → Agree σ s s' x y u u') → Agree σ s s'
        (do if policy.isSome then change .ensureTimer
            x)
        (do if policy.isSome then change .ensureTimer
            y) v v' := by
    intro σ v v' x y hv hxy
    cases policy with
    | none => exact hxy v v' hv
    | some p =>
      have hadm : ∀ c : Cache ν η, c.ensureTimer.admission = c.admission := by
        intro c
        unfold Cache.ensureTimer
        split <;> rfl
      exact InStep.change (List.Subset.refl σ)
        (hxy _ _ (hv.change hv.cache.ensureTimer (hadm _) (hadm _)))
  apply InStep.bind (place_inStep key value policy h)
  intro σ v v' old old' _ hv hold
  cases hold with
  | none => exact tended σ v v' _ _ hv fun _ _ hu => .pure hu rfl
  | some he => exact tended σ v v' _ _ hv fun _ _ hu => releaseIfSet_agree hi key he hu

theorem insert_agree (key : Key) (value : ν) (options : Options η) (h : w.Alike ρ s s' w') :
    Agree ρ s s' (insert host invoke key value options) (insert host invoke key value options) w w' := by
  apply InStep.bind (policyFor_agree hi key options.policy h)
  rintro σ v v' _ policy _ hv rfl
  split
  · exact store_agree hi key value policy hv
  · apply InStep.bind (occupied_agree key hv)
    rintro τ u u' _ taken _ hu rfl
    split
    · exact .pure hu rfl
    · exact store_agree hi key value policy hu

/-! ## Fetches -/

theorem make_agree (key : Key) (factory : η) (options : Options η) (h : w.Alike ρ s s' w') :
    Agree ρ s s' (make host invoke key factory options) (make host invoke key factory options) w w' := by
  apply InStep.bind (hi (.factory factory key) ρ w w' h)
  rintro σ v v' _ made _ hv rfl
  cases made with
  | error message => exact .pure hv rfl
  | ok value =>
    apply InStep.bind (insert_agree hi key value _ hv)
    rintro τ u u' _ _ _ hu -
    exact .pure hu rfl

theorem fetchInside_agree (key : Key) (factory : η) (options : Options η) (retries : Nat)
    (h : w.Alike ρ s s' w') : Agree ρ s s' (fetchInside host invoke key factory options retries)
      (fetchInside host invoke key factory options retries) w w' := by
  show InStep ρ s s' _ _ w w' _
  unfold fetchInside
  split
  · exact make_agree hi key factory options h
  · apply InStep.bind (lookup_agree hi .full key retries h)
    rintro σ v v' _ found _ hv rfl
    cases found with
    | some value => exact .pure hv rfl
    | none => exact make_agree hi key factory options hv

theorem fetch_agree (key : Key) (factory : η) (options : Options η) (retries : Nat)
    (h : w.Alike ρ s s' w') : Agree ρ s s' (fetch host invoke key factory options retries)
      (fetch host invoke key factory options retries) w w' := by
  show InStep ρ s s' _ _ w w' _
  unfold fetch
  apply InStep.cache
  have hsome := h.acquire?_isSome key
  cases ha : w.cache.admission.acquire? key with
  | none =>
    rw [ha] at hsome
    rw [Option.isSome_eq_false_iff.mp hsome |> Option.isNone_iff_eq_none.mp]
    exact .pure h rfl
  | some entered =>
    rw [ha] at hsome
    obtain ⟨entered', ha'⟩ := Option.isSome_iff_exists.mp hsome
    rw [ha']
    obtain ⟨acquired, slot⟩ := entered
    obtain ⟨acquired', slot'⟩ := entered'
    dsimp only
    split
    · exact InStep.holding ha ha' h fun v v' hv => fetchInside_agree hi key factory options retries hv
    · exact .pure h rfl

theorem race_agree (key : Key) (factory : η) (options : Options η) (retries callers : Nat)
    (h : w.Alike ρ s s' w') : Agree ρ s s' (race host invoke key factory options retries callers)
      (race host invoke key factory options retries callers) w w' := by
  induction callers generalizing ρ w w' with
  | zero => exact .pure h rfl
  | succ callers ih =>
    apply InStep.bind (fetch_agree hi key factory options retries h)
    rintro σ v v' _ first _ hv rfl
    apply InStep.bind (ih hv)
    rintro τ u u' _ others _ hu rfl
    exact .pure hu rfl

/-! ## Removals and sweeps -/

theorem remove_agree (key : Key) (h : w.Alike ρ s s' w') :
    Agree ρ s s' (remove invoke key) (remove invoke key) w w' := by
  show InStep ρ s s' _ _ w w' _
  unfold remove
  apply InStep.cache
  generalize w.cache.find? key = found, w'.cache.find? key = found', h.cache.find? key = hfound
  cases hfound with
  | none => exact .pure h rfl
  | @some e e' he =>
    have hout := h.change (h.cache.takeOut key (.removed 1)) rfl rfl
    refine InStep.change (List.Subset.refl ρ) (InStep.note ?_)
    apply InStep.bind (releaseIfSet_agree hi key he (hout.note _ _))
    rintro σ v v' _ _ _ hv -
    exact .pure hv rfl

theorem clear_agree (h : w.Alike ρ s s' w') : Agree ρ s s' (clear invoke) (clear invoke) w w' := by
  have htaken : InStep ρ s s' takeAll takeAll w w' fun σ => RowsAlike σ := by
    unfold InStep Ends
    rw [takeAll_eq, takeAll_eq]
    have hcalls : ∀ u : World ν η μ, u.emptied.calls = u.calls := by
      intro u
      rw [World.emptied_eq]
      rfl
    exact ⟨ρ, List.Subset.refl ρ, h.emptied, hcalls w, hcalls w', h.cache.rows⟩
  apply InStep.bind htaken
  intro σ v v' rows rows' _ hv hrows
  refine InStep.forM (K := fun σ => RowAlike σ) (fun _ _ _ _ => RowAlike.mono) ?_ hrows hv
  intro τ u u' r r' hu hr
  rw [hr.1]
  exact releaseIfSet_agree hi r.1 hr.2 hu

theorem closeUnused_agree (h : w.Alike ρ s s' w') :
    Agree ρ s s' (closeUnused invoke) (closeUnused invoke) w w' := by
  apply InStep.get
  rw [h.cache.handle, h.busy]
  split
  · have hclosed : (w.change fun c => { c.setTimer none with handle := .closed }).Alike ρ s s'
        (w'.change fun c => { c.setTimer none with handle := .closed }) :=
      h.change { h.cache with handle := rfl } rfl rfl
    exact InStep.change (List.Subset.refl ρ) (clear_agree hi hclosed)
  · exact .pure h rfl

theorem sweep_agree (h : w.Alike ρ s s' w') :
    Agree ρ s s' (sweep host invoke) (sweep host invoke) w w' := by
  have hlisted : InStep ρ s s' (candidates host) (candidates host) w w' fun σ =>
      List.Forall₂ fun c c' => c'.1 = c.1 ∧ (c.2, c'.2) ∈ σ := by
    refine InStep.cache (InStep.bind (InStep.filterM (K := fun σ => RowAlike σ)
      (fun _ _ _ _ => RowAlike.mono) ?_ h.cache.rows h) ?_)
    · intro σ v v' r r' hv hr
      rw [hr.2.pending]
      split
      · exact .pure hv rfl
      · exact expired_agree hr.2 hv
    · intro σ v v' rows rows' _ hv hrows
      refine .pure hv (List.forall₂_map_left_iff.mpr (List.forall₂_map_right_iff.mpr (hrows.imp ?_)))
      exact fun r r' hr => ⟨hr.1, hr.2.paired⟩
  apply InStep.bind hlisted
  intro σ v v' cs cs' _ hv hcs
  refine InStep.foldlM (K := fun σ (c c' : Key × Nat) => c'.1 = c.1 ∧ (c.2, c'.2) ∈ σ)
    (fun _ _ _ _ hs hc => ⟨hc.1, hs hc.2⟩) ?_ hcs 0 hv
  intro τ u u' n c c' hu hc
  rw [hc.1]
  apply InStep.bind (expire_agree hi c.1 hc.2 hu)
  rintro υ x x' _ fate _ hx rfl
  cases fate <;> exact .pure hx rfl

omit hi in
theorem liveKeys_agree (h : w.Alike ρ s s' w') :
    Agree ρ s s' (liveKeys host) (liveKeys host) w w' := by
  refine InStep.cache (InStep.bind (InStep.filterM (K := fun σ => RowAlike σ)
    (fun _ _ _ _ => RowAlike.mono) ?_ h.cache.rows h) ?_)
  · intro σ v v' r r' hv hr
    rw [hr.2.pending]
    split
    · exact .pure hv rfl
    · apply InStep.bind (expired_agree hr.2 hv)
      rintro τ u u' _ past _ hu rfl
      exact .pure hu rfl
  · intro σ v v' rows rows' _ hv hrows
    exact .pure hv (RowsAlike.keys hrows)

/-! ## Operations -/

omit hi in
theorem keyed_agree {key : Key} {work : Act ν η μ (Answer ν)} (h : w.Alike ρ s s' w')
    (hx : Agree ρ s s' work work w w') : Agree ρ s s' (keyed host key work) (keyed host key work) w w' := by
  show InStep ρ s s' _ _ w w' _
  unfold keyed
  split
  · exact hx
  · exact .pure h rfl

omit hi in
/-- Work and then an answer made of what it came to. -/
theorem InStep.answer {y : Act ν η μ β} (g : β → Answer ν) (hy : Agree ρ s s' y y w w') :
    Agree ρ s s' (y >>= fun b => Pure.pure (g b)) (y >>= fun b => Pure.pure (g b)) w w' := by
  apply InStep.bind hy
  rintro σ v v' _ b _ hv rfl
  exact .pure hv rfl

theorem carryOut_agree (retries : Nat) {op : Operation ν η} (hop : op.Discreet s s')
    (h : w.Alike ρ s s' w') :
    Agree ρ s s' (carryOut host invoke retries op) (carryOut host invoke retries op) w w' := by
  have hadjust : ∀ f : Cache ν η → Cache ν η, (f w.cache).Alike ρ s s' (f w'.cache) →
      (∀ c, (f c).admission = c.admission) → ∀ answer : Answer ν,
      Agree ρ s s' (change f >>= fun _ => Pure.pure answer) (change f >>= fun _ => Pure.pure answer) w w' := by
    intro f hf hadm answer
    exact InStep.change (List.Subset.refl ρ) (.pure (h.change hf (hadm _) (hadm _)) rfl)
  cases op with
  | insert key value options =>
    exact keyed_agree h (InStep.answer (fun _ => .done) (insert_agree hi key value options h))
  | get key => exact keyed_agree h (InStep.answer .found (lookup_agree hi .full key retries h))
  | contains key =>
    exact keyed_agree h (InStep.answer (fun found => .flag found.isSome)
      (lookup_agree hi .peek key retries h))
  | fetch key factory options =>
    apply InStep.bind (fetch_agree hi key factory options retries h)
    rintro σ v v' _ fetched _ hv rfl
    cases fetched <;> exact .pure hv rfl
  | race key factory options callers =>
    apply InStep.cache
    have hadmits : w'.cache.admission.admits key = w.cache.admission.admits key := h.acquire?_isSome key
    rw [hadmits]
    split
    · exact InStep.answer .raced (race_agree hi key factory options retries callers h)
    · exact .pure h rfl
  | remove key => exact keyed_agree h (InStep.answer .flag (remove_agree hi key h))
  | clear => exact InStep.answer (fun _ => .done) (clear_agree hi h)
  | sweep => exact InStep.answer .count (sweep_agree hi h)
  | length =>
    apply InStep.cache
    rw [h.cache.size_eq]
    exact .pure h rfl
  | keys => exact InStep.answer .keys (liveKeys_agree h)
  | statistics =>
    have heq : s' = s := hop
    subst heq
    apply InStep.cache
    unfold Cache.snapshot
    rw [h.cache.size_eq, h.cache.counters.withTotal_eq]
    exact .pure h rfl
  | timerRunning => exact hop.elim
  | onExpiring handler =>
    refine hadjust (fun c => { c with expiring := c.expiring ++ [handler] }) ?_ (fun _ => rfl) .done
    exact { h.cache with expiring := congrArg (· ++ [handler]) h.cache.expiring }
  | onExpired handler =>
    refine hadjust (fun c => { c with expired := c.expired ++ [handler] }) ?_ (fun _ => rfl) .done
    exact { h.cache with expired := congrArg (· ++ [handler]) h.cache.expired }
  | drop => exact hadjust .giveUp { h.cache with handle := rfl } (fun _ => rfl) (.flag true)

omit hi in
theorem resume_agree (result : Except String α) (h : w.Alike ρ s s' w') :
    Agree ρ s s' (resume result) (resume result) w w' := by
  cases result with
  | ok a => exact .pure h rfl
  | error message => exact .throw h

theorem operate_agree (retries : Nat) {op : Operation ν η} (hop : op.Discreet s s')
    (h : w.Alike ρ s s' w') :
    Agree ρ s s' (operate host invoke retries op) (operate host invoke retries op) w w' := by
  have hcarried : Agree ρ s s' (during (.operation op) (carryOut host invoke retries op))
      (during (.operation op) (carryOut host invoke retries op)) w w' :=
    InStep.during rfl rfl rfl h fun v v' hv => carryOut_agree hi retries hop hv
  refine InStep.bind (InStep.attempt (InStep.bind (InStep.attempt hcarried) ?_)) ?_
  · rintro σ v v' _ result _ hv rfl
    apply InStep.bind (closeUnused_agree hi hv)
    rintro τ u u' _ _ _ hu -
    exact resume_agree result hu
  · rintro σ v v' _ result _ hv rfl
    exact InStep.note (resume_agree result (hv.note _ _))

end

/-! ## Programs -/

theorem run_agree {perform : Operation ν η → Act ν η μ (Answer ν)}
    (hp : ∀ op : Operation ν η, op.Discreet s s' → ∀ σ v v', v.Alike σ s s' v' →
      Agree σ s s' (perform op) (perform op) v v') (p : Program ν η μ α)
    (hd : p.Only (Operation.Discreet s s')) (h : w.Alike ρ s s' w') :
    Agree ρ s s' (p.run perform) (p.run perform) w w' := by
  induction p generalizing ρ w w' with
  | done a => exact .pure h rfl
  | panic message => exact .throw h
  | clock next ih =>
    apply InStep.now
    rw [h.now]
    exact ih w.now (hd w.now) h
  | wait span next ih =>
    have hlater : World.Alike ρ s s' { w with now := w.now.advance span }
        { w' with now := w'.now.advance span } :=
      { h with now := congrArg (·.advance span) h.now }
    exact InStep.step (List.Subset.refl ρ) rfl rfl (ih hd hlater)
  | load next ih =>
    apply InStep.get
    rw [h.memory]
    exact ih w.memory (hd w.memory) h
  | store m next ih =>
    have hstored : World.Alike ρ s s' { w with memory := m } { w' with memory := m } :=
      { h with memory := rfl }
    exact InStep.step (List.Subset.refl ρ) rfl rfl (ih hd hstored)
  | perform op next ih =>
    apply InStep.bind (InStep.attempt (hp op hd.1 ρ w w' h))
    rintro σ v v' _ r _ hv rfl
    exact ih r (hd.2 r) hv

theorem callVia_agree {perform : Operation ν η → Act ν η μ (Answer ν)}
    (hp : ∀ op : Operation ν η, op.Discreet s s' → ∀ σ v v', v.Alike σ s s' v' →
      Agree σ s s' (perform op) (perform op) v v') (hhost : host.Only (Operation.Discreet s s'))
    (c : Callback ν η) (h : w.Alike ρ s s' w') :
    Agree ρ s s' (callVia host perform c) (callVia host perform c) w w' := by
  have hrun := run_agree hp (host.respond c) (hhost c) (h.note (.entered c) (.entered c))
  refine InStep.note (InStep.bind (InStep.attempt hrun) ?_)
  rintro σ v v' _ r _ hv rfl
  cases r with
  | ok answer => exact InStep.note (.pure (hv.note _ _) rfl)
  | error message => exact InStep.note (.throw (hv.note _ _))

theorem perform_agree (hhost : host.Only (Operation.Discreet s s')) (depth : Nat) :
    ∀ op : Operation ν η, op.Discreet s s' → ∀ σ v v', v.Alike σ s s' v' →
      Agree σ s s' (perform host depth op) (perform host depth op) v v' := by
  induction depth with
  | zero => exact fun op _ σ v v' hv => .throw hv
  | succ depth ih =>
    intro op hop σ v v' hv
    apply InStep.cache
    rw [hv.cache.handle]
    split
    · exact operate_agree (fun c τ u u' hu => callVia_agree ih hhost c hu) depth hop hv
    · exact .pure hv rfl

end Act

end ExpiringCache
