import ExpiringCache.Proofs.Lifetimes

/-!
# Evictions and the handlers that hear of them

Handlers hear of an eviction only after it: the insertion was offered to the handlers that may veto,
all of them let it go, it was still stored and expired when it was taken out, and it is announced
once. Every other way out is silent, and an insertion without a policy is never offered.
-/

namespace ExpiringCache

variable {ν η μ : Type}

namespace Line

end Line

/-- The insertion `g` of `value` left at `gone` by right: it had come in, a round over it ended
without objection just before, in the same work and at the same instant, and it was stored and
expired once more when it was taken out. -/
def Expiry (g : Nat) (key : Key) (value : ν) (gone : Line ν η) (before : List (Line ν η)) : Prop :=
  (∃ m ∈ before, m.record = .inserted g key value) ∧
  ∃ decided rest answers e policy, decided.record = .decided g key value answers ∧
    (∀ a ∈ answers, a = .proceed) ∧ decided.now = gone.now ∧ decided.calls = gone.calls ∧
    (∃ asked start earlier, start.record = .offered g key value asked ∧
      start.calls = .deciding key g :: gone.calls ∧
      answers.length = start.cache.expiring.length ∧
      Since start earlier (votes key value asked start.cache.expiring answers) rest) ∧
    decided.cache.find? key = some e ∧ e.generation = g ∧ e.value = value ∧
    e.policy = some policy ∧
    FoundExpired gone.now gone.calls decided.cache policy (decided :: rest) before ∧
    gone.cache = decided.cache.takeOut key .expiration

variable {host : Host ν η μ} {settings : Settings η} {hosting : Hosting} {w : World ν η μ}
  {journal before : List (Line ν η)} {l : Line ν η} {g : Nat} {key : Key} {value : ν}

theorem FoundExpired.suffix {now : Instant} {calls : List (Activity ν η)} {cache : Cache ν η}
    {policy : Policy η} {earlier later : List (Line ν η)}
    (h : FoundExpired now calls cache policy earlier later) : earlier <:+ later := by
  cases policy with
  | custom predicate => exact ⟨[_], h.symm⟩
  | _ => exact ⟨[], h.1.symm⟩

theorem Line.OfferLawful.stored {policy : Policy η} (h : l.OfferLawful g key value policy before) :
    ∃ e, l.cache.find? key = some e ∧ e.generation = g ∧ e.value = value ∧
      e.policy = some policy := by
  obtain ⟨outer, cache, earlier, e, -, -, hf, hg, hv, hp, -, hc, -⟩ := h
  have hm := Cache.kept_mark true key g cache key
  rw [hf] at hm
  obtain ⟨e', he', heq⟩ := Option.map_eq_some_iff.mp hm
  simp only [Prod.mk.injEq] at heq
  obtain ⟨hg', hv', hp'⟩ := heq
  rw [hc]
  exact ⟨e', he', hg'.trans hg, hv'.trans hv, hp'.trans hp⟩

namespace Chronicle

theorem expiry (h : Chronicle journal) (hs : l :: before <:+ journal)
    (hr : l.record = .left g key value .expired) : Expiry g key value l before := by
  obtain ⟨hlives, -⟩ := h.at hs
  have hl : l.ExpiryLawful g key value before := h.lawful hs hr
  obtain ⟨d, rest, offered, answers, e, policy, hd, hno, hnow, hcalls, hf, hg, hv, hp, hc, hx⟩ := hl
  have hcame : ∃ m ∈ before, m.record = .inserted g key value := by
    obtain ⟨m, hm, hrec⟩ := hlives.came l (List.mem_cons_self ..) g key value .expired hr
    rcases List.mem_cons.mp hm with rfl | hm
    · rw [hr] at hrec
      cases hrec
    · exact ⟨m, hm, hrec⟩
  have hds : d :: rest <:+ journal := (hx.suffix.trans (List.suffix_cons _ _)).trans hs
  have hd' : d.DecisionLawful g key offered answers rest := h.lawful hds hd
  obtain ⟨asked, start, earlier, hstart, hscalls, hlen, hsince⟩ := hd'
  have hstarts : start :: earlier <:+ journal :=
    hsince.suffix.trans ((List.suffix_cons _ _).trans hds)
  obtain ⟨hslives, -⟩ := h.at hstarts
  have hs' : start.OfferLawful g key offered asked earlier := h.lawful hstarts hstart
  -- the value that was offered is the value that came in
  have hvalue : offered = value := by
    obtain ⟨e', he', hg', hv', -⟩ := hs'.stored
    obtain ⟨m, hm, hrec, -⟩ := hslives.stored key e' he'
    obtain ⟨n, hn, hrec'⟩ := hcame
    have hml : m ∈ l :: before :=
      (hsince.suffix.trans ((List.suffix_cons _ _).trans (hx.suffix.trans
        (List.suffix_cons _ _)))).subset hm
    rw [hg', hv'] at hrec
    exact (hlives.inserted_unique hml (List.mem_cons_of_mem _ hn) hrec hrec').2
  subst hvalue
  have hall : ∀ a ∈ answers, a = .proceed := by
    intro a ha
    cases a with
    | proceed => rfl
    | cancel => exact absurd ha hno
  exact ⟨hcame, d, rest, answers, e, policy, hd, hall, hnow, hcalls,
    ⟨asked, start, earlier, hstart, by rw [hscalls, hcalls], hlen, hsince⟩, hf, hg, hv, hp, hx, hc⟩

theorem announcement (h : Chronicle journal) (hs : l :: before <:+ journal) {initial : Disposal}
    (hr : l.record = .announced g key value initial) :
    ∃ gone rest, before = gone :: rest ∧ gone.record = .left g key value .expired ∧
      l.calls = .telling key g :: gone.calls ∧ initial = .ofBool l.cache.settings.dispose :=
  h.lawful hs hr

theorem offer (h : Chronicle journal) (hs : l :: before <:+ journal) {policy : Policy η}
    (hr : l.record = .offered g key value policy) : l.OfferLawful g key value policy before :=
  h.lawful hs hr

end Chronicle

namespace Recorded

end Recorded

end ExpiringCache
