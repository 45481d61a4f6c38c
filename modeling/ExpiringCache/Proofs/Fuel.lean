import ExpiringCache.Engine.Session
import ExpiringCache.Proofs.Execution

/-!
# Bounds

Callbacks are nested, and reads start over, at most as often as a bound allows. The bound is not part
of what the engine does: a run that stays below it is the same for every larger bound. So an operation
that is not cut short for some bound has an outcome, and it is the only one.
-/

namespace ExpiringCache.Act

variable {ν η μ α β : Type}

/-- The work ends as `y` does, unless it is cut short. -/
def Approximates (x y : Act ν η μ α) : Prop :=
  ∀ w, (∃ v, x w = .error .exhausted v) ∨ x w = y w

namespace Approximates

theorem refl (x : Act ν η μ α) : x.Approximates x := fun _ => Or.inr rfl

theorem exhausted (y : Act ν η μ α) : (throw .exhausted : Act ν η μ α).Approximates y :=
  fun w => Or.inl ⟨w, rfl⟩

theorem eq {x y : Act ν η μ α} (h : x.Approximates y) {w : World ν η μ}
    (hx : x.Ends w fun r _ => r ≠ .error .exhausted) : x w = y w := by
  rcases h w with ⟨v, hv⟩ | heq
  · unfold Ends at hx
    rw [hv] at hx
    exact absurd rfl hx
  · exact heq

theorem bind {x y : Act ν η μ α} {f g : α → Act ν η μ β} (h : x.Approximates y)
    (hf : ∀ a, (f a).Approximates (g a)) : (x >>= f).Approximates (y >>= g) := by
  intro w
  show (∃ v, EStateM.bind x f w = .error .exhausted v) ∨ EStateM.bind x f w = EStateM.bind y g w
  unfold EStateM.bind
  rcases h w with ⟨v, hv⟩ | heq
  · simp only [hv]
    exact Or.inl ⟨v, rfl⟩
  · rw [heq]
    cases y w with
    | ok a v => exact hf a v
    | error e v => exact Or.inr rfl

theorem after (x : Act ν η μ α) {f g : α → Act ν η μ β} (hf : ∀ a, (f a).Approximates (g a)) :
    (x >>= f).Approximates (x >>= g) := .bind (.refl x) hf

theorem before {x y : Act ν η μ α} (h : x.Approximates y) (f : α → Act ν η μ β) :
    (x >>= f).Approximates (y >>= f) := .bind h fun a => .refl (f a)

theorem attempt {x y : Act ν η μ α} (h : x.Approximates y) :
    (Act.attempt x).Approximates (Act.attempt y) := by
  intro w
  unfold Act.attempt
  rcases h w with ⟨v, hv⟩ | heq
  · simp only [hv]
    exact Or.inl ⟨v, rfl⟩
  · rw [heq]
    exact Or.inr rfl

theorem bracket {enter leave : World ν η μ → World ν η μ} {x y : Act ν η μ α}
    (h : x.Approximates y) : (Act.bracket enter leave x).Approximates (Act.bracket enter leave y) := by
  intro w
  unfold Act.bracket
  rcases h (enter w) with ⟨v, hv⟩ | heq
  · simp only [hv]
    exact Or.inl ⟨leave v, rfl⟩
  · rw [heq]
    exact Or.inr rfl

theorem mapM {f g : α → Act ν η μ β} (xs : List α) (h : ∀ a, (f a).Approximates (g a)) :
    (xs.mapM f).Approximates (xs.mapM g) := by
  induction xs with
  | nil => exact .refl _
  | cons x xs ih =>
    rw [List.mapM_cons, List.mapM_cons]
    exact .bind (h x) fun _ => .before ih _

theorem foldlM {f g : β → α → Act ν η μ β} (xs : List α)
    (h : ∀ b a, (f b a).Approximates (g b a)) :
    ∀ b, (xs.foldlM f b).Approximates (xs.foldlM g b) := by
  induction xs with
  | nil => exact fun _ => .refl _
  | cons x xs ih =>
    intro b
    rw [List.foldlM_cons, List.foldlM_cons]
    exact .bind (h b x) ih

theorem forM {f g : α → Act ν η μ Unit} (xs : List α) (h : ∀ a, (f a).Approximates (g a)) :
    (xs.forM f).Approximates (xs.forM g) := by
  induction xs with
  | nil => exact .refl _
  | cons x xs ih => exact .bind (h x) fun _ => ih

end Approximates

/-! ## The engine -/

section

variable {host : Host ν η μ} {invoke invoke' : Invoke ν η μ}
  (hi : ∀ c, (invoke c).Approximates (invoke' c))

include hi

theorem release_approximates (key : Key) (e : Entry ν η) :
    (release invoke key e).Approximates (release invoke' key e) := by
  apply Approximates.after
  intro c
  cases c.settings.release with
  | none => exact .refl _
  | some handler => exact .bracket (hi _)

theorem releaseIfSet_approximates (key : Key) (e : Entry ν η) :
    (releaseIfSet invoke key e).Approximates (releaseIfSet invoke' key e) := by
  apply Approximates.after
  intro c
  split
  · exact release_approximates hi key e
  · exact .refl _

theorem askExpiring_approximates (g : Nat) (key : Key) (value : ν) (policy : Policy η) :
    (askExpiring invoke g key value policy).Approximates
      (askExpiring invoke' g key value policy) := by
  apply Approximates.after
  intro _
  apply Approximates.after
  exact fun c => .mapM _ fun _ => hi _

theorem tellExpired_approximates (g : Nat) (key : Key) (value : ν) (initial : Disposal) :
    (tellExpired invoke g key value initial).Approximates
      (tellExpired invoke' g key value initial) := by
  apply Approximates.after
  intro _
  apply Approximates.after
  exact fun c => .foldlM _ (fun running handler => hi (.expired handler key value running)) _

theorem disposeEvicted_approximates (key : Key) (gone : Entry ν η) :
    (disposeEvicted invoke key gone).Approximates (disposeEvicted invoke' key gone) := by
  apply Approximates.after
  intro c
  apply Approximates.bind (.bracket (tellExpired_approximates hi _ _ _ _))
  intro final
  apply Approximates.after
  intro _
  split
  · exact release_approximates hi key gone
  · exact .refl _

theorem expire_approximates (key : Key) (g : Nat) :
    (expire host invoke key g).Approximates (expire host invoke' key g) := by
  apply Approximates.after
  intro found
  cases found with
  | none => exact .refl _
  | some offered =>
    apply Approximates.bind (.bracket (askExpiring_approximates hi _ _ _ _))
    intro answers
    apply Approximates.after
    intro _
    split
    · exact .refl _
    · apply Approximates.after
      intro gone
      cases gone with
      | none => exact .refl _
      | some gone => exact .before (disposeEvicted_approximates hi key gone) _

theorem lookup_approximates (access : Access) (key : Key) (n k : Nat) :
    (lookup host invoke access key n).Approximates (lookup host invoke' access key (n + k)) := by
  induction n with
  | zero => exact .exhausted _
  | succ n ih =>
    rw [Nat.add_right_comm]
    unfold lookup
    apply Approximates.after
    intro c
    cases c.find? key with
    | none => exact .refl _
    | some e =>
      apply Approximates.after
      intro found
      cases found with
      | false =>
        rw [if_pos Bool.not_false, if_pos Bool.not_false]
        exact .refl _
      | true =>
        dsimp only
        split
        · exact .refl _
        · split
          · exact .refl _
          · apply Approximates.bind (expire_approximates hi key e.generation)
            intro fate
            cases fate with
            | stale => exact .after _ fun _ => ih
            | _ => exact .refl _

theorem policyFor_approximates (key : Key) (given : Option (Policy η)) :
    (policyFor invoke key given).Approximates (policyFor invoke' key given) := by
  cases given with
  | some policy => exact .refl _
  | none =>
    apply Approximates.after
    intro c
    cases c.settings.defaultPolicy with
    | none => exact .refl _
    | some handler => exact hi (.defaultPolicy handler key)

theorem store_approximates (key : Key) (value : ν) (policy : Option (Policy η)) :
    (store invoke key value policy).Approximates (store invoke' key value policy) := by
  apply Approximates.after
  intro replaced
  have tended : ∀ rest rest' : Act ν η μ Unit, rest.Approximates rest' →
      (do if policy.isSome then change .ensureTimer
          rest).Approximates
      (do if policy.isSome then change .ensureTimer
          rest') := by
    intro rest rest' h
    cases policy with
    | none => exact h
    | some policy => exact .after _ fun _ => h
  cases replaced with
  | none => exact tended _ _ (.refl _)
  | some old => exact tended _ _ (releaseIfSet_approximates hi key old)

theorem insert_approximates (key : Key) (value : ν) (options : Options η) :
    (insert host invoke key value options).Approximates (insert host invoke' key value options) := by
  apply Approximates.bind (policyFor_approximates hi key options.policy)
  intro policy
  split
  · exact store_approximates hi key value policy
  · apply Approximates.after
    intro taken
    split
    · exact .refl _
    · exact store_approximates hi key value policy

theorem make_approximates (key : Key) (factory : η) (options : Options η) :
    (make host invoke key factory options).Approximates (make host invoke' key factory options) := by
  apply Approximates.bind (hi (.factory factory key))
  intro made
  cases made with
  | error message => exact .refl _
  | ok value => exact .before (insert_approximates hi key value _) _

theorem fetch_approximates (key : Key) (factory : η) (options : Options η) (n k : Nat) :
    (fetch host invoke key factory options n).Approximates
      (fetch host invoke' key factory options (n + k)) := by
  have inside : (fetchInside host invoke key factory options n).Approximates
      (fetchInside host invoke' key factory options (n + k)) := by
    unfold fetchInside
    split
    · exact make_approximates hi key factory options
    · apply Approximates.bind (lookup_approximates hi .full key n k)
      intro found
      cases found with
      | some value => exact .refl _
      | none => exact make_approximates hi key factory options
  apply Approximates.after
  intro c
  cases c.admission.acquire? key with
  | none => exact .refl _
  | some entered =>
    dsimp only
    split
    · exact .bracket inside
    · exact .refl _

theorem race_approximates (key : Key) (factory : η) (options : Options η) (n k callers : Nat) :
    (race host invoke key factory options n callers).Approximates
      (race host invoke' key factory options (n + k) callers) := by
  induction callers with
  | zero => exact .refl _
  | succ callers ih =>
    apply Approximates.bind (fetch_approximates hi key factory options n k)
    exact fun first => .before ih _

theorem clear_approximates :
    (clear invoke : Act ν η μ Unit).Approximates (clear invoke') := by
  apply Approximates.after
  exact fun rows => .forM rows fun r => releaseIfSet_approximates hi r.1 r.2

theorem closeUnused_approximates :
    (closeUnused invoke : Act ν η μ Unit).Approximates (closeUnused invoke') := by
  apply Approximates.after
  intro w
  split
  · exact .after _ fun _ => clear_approximates hi
  · exact .refl _

theorem sweep_approximates : (sweep host invoke).Approximates (sweep host invoke') := by
  apply Approximates.after
  exact fun listed => .foldlM listed (fun n c => .before (expire_approximates hi c.1 c.2) _) 0

theorem carryOut_approximates (n k : Nat) (op : Operation ν η) :
    (carryOut host invoke n op).Approximates (carryOut host invoke' (n + k) op) := by
  have keyed : ∀ {key : Key} {work work' : Act ν η μ (Answer ν)}, work.Approximates work' →
      (keyed host key work).Approximates (keyed host key work') := by
    intro key work work' h
    unfold Act.keyed
    split
    · exact h
    · exact .refl _
  cases op with
  | insert key value options => exact keyed (.before (insert_approximates hi key value options) _)
  | get key => exact keyed (.before (lookup_approximates hi .full key n k) _)
  | contains key => exact keyed (.before (lookup_approximates hi .peek key n k) _)
  | fetch key factory options => exact .before (fetch_approximates hi key factory options n k) _
  | race key factory options callers =>
    apply Approximates.after
    intro c
    split
    · exact .before (race_approximates hi key factory options n k callers) _
    · exact .refl _
  | remove key =>
    apply keyed
    apply Approximates.before
    apply Approximates.after
    intro c
    cases c.find? key with
    | none => exact .refl _
    | some e => exact .after _ fun _ => .after _ fun _ => .before (releaseIfSet_approximates hi key e) _
  | clear => exact .before (clear_approximates hi) _
  | sweep => exact .before (sweep_approximates hi) _
  | _ => exact .refl _

theorem operate_approximates (n k : Nat) (op : Operation ν η) :
    (operate host invoke n op).Approximates (operate host invoke' (n + k) op) := by
  apply Approximates.before
  apply Approximates.attempt
  apply Approximates.bind (.attempt (.bracket (carryOut_approximates hi n k op)))
  exact fun result => .before (closeUnused_approximates hi) _

end

theorem run_approximates {perform perform' : Operation ν η → Act ν η μ (Answer ν)}
    (h : ∀ op, (perform op).Approximates (perform' op)) (p : Program ν η μ α) :
    (p.run perform).Approximates (p.run perform') := by
  induction p with
  | done => exact .refl _
  | panic => exact .refl _
  | clock next ih => exact .after _ ih
  | wait span next ih => exact .after _ fun _ => ih
  | load next ih => exact .after _ fun w => ih w.memory
  | store m next ih => exact .after _ fun _ => ih
  | perform op next ih => exact .bind (.attempt (h op)) ih

theorem callVia_approximates (host : Host ν η μ)
    {perform perform' : Operation ν η → Act ν η μ (Answer ν)}
    (h : ∀ op, (perform op).Approximates (perform' op)) (c : Callback ν η) :
    (callVia host perform c).Approximates (callVia host perform' c) := by
  apply Approximates.after
  exact fun _ => .before (.attempt (run_approximates h (host.respond c))) _

/-- More nesting is allowed, and nothing else is different. -/
theorem perform_approximates (host : Host ν η μ) (n k : Nat) :
    ∀ op, (perform host n op).Approximates (perform host (n + k) op) := by
  induction n with
  | zero => exact fun op => .exhausted _
  | succ n ih =>
    intro op
    rw [Nat.succ_add]
    apply Approximates.after
    intro c
    split
    · exact operate_approximates (callVia_approximates host ih) n k op
    · exact .refl _

/-- An operation that is not cut short comes out the same for every larger bound. -/
theorem perform_eq {host : Host ν η μ} {n m : Nat} (hle : n ≤ m) {op : Operation ν η}
    {w : World ν η μ} (h : (perform host n op).Ends w fun r _ => r ≠ .error .exhausted) :
    perform host m op w = perform host n op w := by
  obtain ⟨k, rfl⟩ := Nat.exists_eq_add_of_le hle
  exact ((perform_approximates host n k op).eq h).symm

end ExpiringCache.Act
