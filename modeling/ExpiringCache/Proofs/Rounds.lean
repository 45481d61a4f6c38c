import ExpiringCache.Engine.Expiry
import ExpiringCache.Proofs.Runs

/-!
# Rounds of handlers

Under the assumption that callbacks run, so do the hand-over of a value, a round of handlers of
either kind, and with them the whole expiry of one insertion. A round knows what it has heard so
far: at each handler's turn the replies since the round began are those of the handlers before it.
-/

namespace ExpiringCache

variable {ν η μ : Type}

namespace Entry

def deadline? (e : Entry ν η) : Option Instant := e.policy.bind (·.deadline?)

/-- The entry has a deadline, and it has been reached. -/
def due (now : Instant) (e : Entry ν η) : Bool := Policy.reached e.deadline? now

theorem due_eq_false_of_policy {e : Entry ν η} (h : e.policy = none) (now : Instant) :
    e.due now = false := by
  unfold due deadline?
  rw [h]
  rfl

end Entry

/-- What a callback is about to hand over. -/
def duty (c : Callback ν η) (calls : List (Activity ν η)) : List Nat :=
  match c, calls with
  | .release .., .releasing _ g :: _ => [g]
  | _, _ => []

/-- Callbacks run wherever it is lawful to call them, and write down that they began and, last, their
own reply. -/
def Invokes (invoke : Invoke ν η μ) : Prop :=
  ∀ (c : Callback ν η) (w : World ν η μ) (level : Nat) (frame : Account),
    level ≤ w.calls.length + 1 → (w.line (.entered c)).Lawful w.journal →
    (invoke c).Goes level (frame.owing (duty c w.calls)) w (fun _ => frame) fun v _ seg =>
      replies w.calls.length seg = [⟨c, v⟩] ∧ ∃ l ∈ seg, l.record = .entered c

namespace Act

variable {host : Host ν η μ} {invoke : Invoke ν η μ} {w : World ν η μ} {level : Nat}
  {key : Key} {g : Nat}

theorem release_goes (hi : Invokes invoke) (frame : Account) (hl : level ≤ w.calls.length + 2)
    {e : Entry ν η} {exit : Exit}
    (hleft : ∃ l ∈ w.journal, l.record = .left e.generation key e.value exit) :
    (release invoke key e).Goes level
      (frame.owing (if w.cache.settings.release.isSome then [e.generation] else [])) w
      (fun _ => frame) fun _ _ _ => True := by
  unfold release
  refine Goes.cache ?_
  cases hs : w.cache.settings.release with
  | none => exact .pure rfl trivial
  | some handler =>
    have hlaw : ((w.push (.releasing key e.generation)).line
        (.entered (.release handler key e.value))).Lawful w.journal :=
      ⟨e.generation, w.calls, exit, rfl, hs, hleft⟩
    exact (Goes.during rfl (hi _ _ level frame hl hlaw)).imp fun _ _ _ _ _ => trivial

theorem releaseIfSet_goes (hi : Invokes invoke) (frame : Account) (hl : level ≤ w.calls.length + 2)
    {e : Entry ν η} {exit : Exit}
    (hleft : ∃ l ∈ w.journal, l.record = .left e.generation key e.value exit) :
    (releaseIfSet invoke key e).Goes level (frame.owing (w.cache.settings.owed [e.generation])) w
      (fun _ => frame) fun _ _ _ => True := by
  unfold releaseIfSet Settings.owed
  show (if w.cache.settings.dispose = true then _ else _ : Act ν η μ Unit).Goes _ _ _ _ _
  cases hd : w.cache.settings.dispose with
  | false =>
    simp only [Bool.false_and, Bool.false_eq_true, if_false]
    exact .pure rfl trivial
  | true =>
    simp only [Bool.true_and, if_true]
    exact release_goes hi frame hl hleft

theorem expired_goes (host : Host ν η μ) (w : World ν η μ) (level : Nat) (e : Entry ν η) :
    (expired host e).Goes level .clear w (fun _ => .clear) fun found w' _ =>
      w'.cache = w.cache ∧ w'.now = w.now ∧ (found = true → ∃ policy, e.policy = some policy ∧
        FoundExpired w.now w.calls w.cache policy w.journal w'.journal) ∧
        (found = false → e.due w.now = false) := by
  unfold expired
  show (e.expired (consult host) w.now).Goes _ _ _ _ _
  unfold Entry.expired Entry.due Entry.deadline?
  cases hp : e.policy with
  | none =>
    refine .pure rfl ⟨rfl, rfl, ?_, fun _ => rfl⟩
    intro h
    cases h
  | some policy =>
    cases policy with
    | custom predicate =>
      have hrun : ∀ answer m, Run level .clear .clear True
          [({ w with memory := m } : World ν η μ).line (.consulted predicate answer)] w
          (({ w with memory := m } : World ν η μ).note (.consulted predicate answer)) := by
        intro answer m
        have h1 : Run level .clear .clear True [] w ({ w with memory := m } : World ν η μ) :=
          .silent (.memory m) rfl rfl
        have h2 : Run level .clear .clear True
            [({ w with memory := m } : World ν η μ).line (.consulted predicate answer)]
            ({ w with memory := m } : World ν η μ)
            (({ w with memory := m } : World ν η μ).note (.consulted predicate answer)) :=
          .line (.consulted predicate answer) rfl trivial (.plain rfl rfl)
        exact h1.trans h2
      refine ends_consult ?_ ?_
      · intro found m
        refine ⟨_, hrun _ m, rfl, rfl, ?_, fun _ => rfl⟩
        rintro rfl
        exact ⟨_, rfl, rfl⟩
      · intro message m
        have h := hrun none m
        exact ⟨_, h.moves, h.calls, h.journal, h.ledger.imp fun _ => trivial⟩
    | _ => exact .pure rfl ⟨rfl, rfl, fun h => ⟨_, rfl, rfl, h⟩, fun h => h⟩

/-- Under `key` is the insertion `g`, found expired before `w'` and not marked. -/
def Candidate (w w' : World ν η μ) (key : Key) (g : Nat) (e : Entry ν η) (policy : Policy η) : Prop :=
  w.cache.insertion? key g = some e ∧ e.pending = false ∧ e.policy = some policy ∧
    FoundExpired w.now w.calls w.cache policy w.journal w'.journal

/-- A round may be offered about what was found expired, once it is marked. -/
theorem Candidate.offer_lawful {w' : World ν η μ} {e : Entry ν η} {policy : Policy η}
    (h : Candidate w w' key g e policy) (hc : w'.cache = w.cache) (hn : w'.now = w.now)
    (hcalls : w'.calls = w.calls) (hev : evicting key w.calls = true) :
    (((w'.change (.mark true key g)).push (.deciding key g)).line
      (.offered g key e.value policy)).Lawful w'.journal := by
  obtain ⟨hins, hp, hq, hx⟩ := h
  obtain ⟨hfind, hg⟩ := Cache.insertion?_eq_some.mp hins
  refine ⟨w'.calls, w'.cache, w.journal, e, rfl, ?_, ?_, hg, rfl, hq, hp, rfl, ?_⟩
  · rw [hcalls]
    exact hev
  · rw [hc]
    exact hfind
  · show FoundExpired w'.now w'.calls w'.cache policy w.journal w'.journal
    rw [hn, hcalls, hc]
    exact hx

theorem candidate?_goes (host : Host ν η μ) (w : World ν η μ) (level : Nat) (key : Key) (g : Nat) :
    (candidate? host key g).Goes level .clear w (fun _ => .clear) fun r w' _ =>
      w'.cache = w.cache ∧ w'.now = w.now ∧
        (∀ e policy, r = some (e, policy) → Candidate w w' key g e policy) ∧
        (r = none → ∀ e, w.cache.insertion? key g = some e → e.pending = true ∨ e.due w.now = false) := by
  have nothing : ∀ w1 : World ν η μ, w1.cache = w.cache → w1.now = w.now →
      (∀ e, w.cache.insertion? key g = some e → e.pending = true ∨ e.due w.now = false) →
      (pure none : Act ν η μ (Option (Entry ν η × Policy η))).Goes level .clear w1
      (fun _ => .clear) fun r w' _ => w'.cache = w.cache ∧ w'.now = w.now ∧
        (∀ e policy, r = some (e, policy) → Candidate w w' key g e policy) ∧
        (r = none → ∀ e, w.cache.insertion? key g = some e →
          e.pending = true ∨ e.due w.now = false) := by
    intro w1 hc hn hdue
    refine .pure rfl ⟨hc, hn, ?_, fun _ => hdue⟩
    intro e policy h
    cases h
  unfold candidate?
  refine Goes.cache ?_
  cases hf : w.cache.insertion? key g with
  | none =>
    refine (nothing w rfl rfl ?_).imp fun _ _ _ _ h => by rwa [hf] at h
    intro e he
    rw [hf] at he
    cases he
  | some e =>
    have only : ∀ e', some e = some e' → e.pending = true ∨ e.due w.now = false →
        e'.pending = true ∨ e'.due w.now = false := by
      intro e' he h
      cases he
      exact h
    rw [hf] at nothing
    cases hp : e.pending with
    | true =>
      simp only [hp]
      exact nothing w rfl rfl fun e' he => only e' he (Or.inl hp)
    | false =>
      cases hq : e.policy with
      | none =>
        simp only [hp, hq]
        exact nothing w rfl rfl fun e' he =>
          only e' he (Or.inr (Entry.due_eq_false_of_policy hq w.now))
      | some policy =>
        simp only [hp, hq]
        refine .bind (expired_goes host w level e) ?_
        rintro found w1 seg hr ⟨hc, hn, hfound, hlate⟩
        cases found with
        | false =>
          exact (nothing w1 hc hn fun e' he => only e' he (Or.inr (hlate rfl))).imp
            fun _ _ _ _ h => h
        | true =>
          obtain ⟨p, hp', hx⟩ := hfound rfl
          obtain rfl : policy = p := Option.some.inj (hq.symm.trans hp')
          refine .pure rfl ⟨hc, hn, ?_, ?_⟩
          · intro e' policy' h
            cases h
            exact ⟨hf, hp, hq, hx⟩
          · intro h
            cases h

/-- The replies of a round that `start` began are `said` so far. -/
def Heard (start : Line ν η) (rest : List (Line ν η)) (said : List (Reply ν η))
    (w : World ν η μ) : Prop :=
  w.calls = start.calls ∧ Since start rest said w.journal

theorem Heard.more {start : Line ν η} {rest seg : List (Line ν η)} {said new : List (Reply ν η)}
    {w' : World ν η μ} {a b : Account} (h : Heard start rest said w)
    (hr : Run level a b True seg w w') (hnew : replies w.calls.length seg = new) :
    Heard start rest (said ++ new) w' := by
  obtain ⟨hc, hs⟩ := h
  refine ⟨hr.calls.trans hc, ?_⟩
  rw [hr.journal]
  refine hs.more ?_ ?_
  · intro l hl
    rw [← hc]
    exact hr.ledger.inside l hl
  · rw [← hc]
    exact hnew

theorem ask_goes (hi : Invokes invoke) (frame : Account) {value : ν} {policy : Policy η}
    (start : Line ν η) {rest : List (Line ν η)} (hstart : start.record = .offered g key value policy)
    (more : List η) : ∀ (asked : List η) (answers : List Decision) (w : World ν η μ),
      level ≤ w.calls.length + 1 → start.cache.expiring = asked ++ more →
      answers.length = asked.length → Heard start rest (votes key value policy asked answers) w →
      (more.mapM fun handler => invoke (.expiring handler key value policy)).Goes level frame w
        (fun _ => frame) fun new w' _ => new.length = more.length ∧
          Heard start rest (votes key value policy (asked ++ more) (answers ++ new)) w' := by
  induction more with
  | nil =>
    intro asked answers w hl hall hlen hs
    rw [List.mapM_nil]
    refine .pure rfl ⟨rfl, ?_⟩
    rw [List.append_nil, List.append_nil]
    exact hs
  | cons handler more ih =>
    intro asked answers w hl hall hlen hs
    rw [List.mapM_cons]
    -- those before it have answered, so it is this handler's turn
    have hlaw : (w.line (.entered (.expiring handler key value policy))).Lawful w.journal :=
      ⟨g, start, rest, asked, answers, more, hstart, hs.1.symm, hall, hlen, hs.2⟩
    refine .bind (hi _ w level frame hl hlaw) ?_
    rintro answer w1 seg1 hr1 ⟨hnew, -⟩
    have hs1 := hs.more hr1 hnew
    rw [← votes_snoc hlen] at hs1
    have hl1 : level ≤ w1.calls.length + 1 := by
      rw [hr1.calls]
      exact hl
    refine .bind (ih (asked ++ [handler]) (answers ++ [answer]) w1 hl1 ?_ ?_ hs1) ?_
    · rw [hall, List.append_assoc]
      rfl
    · simp [hlen]
    · rintro new w2 seg2 hr2 ⟨hn, hs2⟩
      refine .pure rfl ⟨by simp [hn], ?_⟩
      simpa only [List.append_assoc, List.cons_append, List.nil_append] using hs2

theorem tell_goes (hi : Invokes invoke) (frame : Account) {value : ν} {initial : Disposal}
    (start : Line ν η) {rest : List (Line ν η)} (hstart : start.record = .announced g key value initial)
    (more : List η) : ∀ (told : List η) (answers : List Disposal) (w : World ν η μ),
      level ≤ w.calls.length + 1 → start.cache.expired = told ++ more →
      answers.length = told.length → Heard start rest (verdicts key value initial told answers) w →
      (more.foldlM (fun running handler => invoke (.expired handler key value running))
        (settled initial answers)).Goes level frame w (fun _ => frame) fun final w' _ =>
          ∃ new, new.length = more.length ∧ final = settled initial (answers ++ new) ∧
            Heard start rest (verdicts key value initial (told ++ more) (answers ++ new)) w' := by
  induction more with
  | nil =>
    intro told answers w hl hall hlen hs
    rw [List.foldlM_nil]
    refine .pure rfl ⟨[], rfl, ?_⟩
    rw [List.append_nil, List.append_nil]
    exact ⟨rfl, hs⟩
  | cons handler more ih =>
    intro told answers w hl hall hlen hs
    rw [List.foldlM_cons]
    have hlaw : (w.line (.entered (.expired handler key value (settled initial answers)))).Lawful
        w.journal :=
      ⟨g, initial, start, rest, told, answers, more, hstart, hs.1.symm, hall, hlen, rfl, hs.2⟩
    refine .bind (hi _ w level frame hl hlaw) ?_
    rintro answer w1 seg1 hr1 ⟨hnew, -⟩
    have hs1 := hs.more hr1 hnew
    rw [← verdicts_snoc initial told answers hlen] at hs1
    have hl1 : level ≤ w1.calls.length + 1 := by
      rw [hr1.calls]
      exact hl
    have hrest := ih (told ++ [handler]) (answers ++ [answer]) w1 hl1 (by
      rw [hall, List.append_assoc]
      rfl) (by simp [hlen]) hs1
    rw [settled_snoc] at hrest
    refine hrest.imp ?_
    rintro final w2 seg2 hr2 ⟨new, hn, hfinal, hs2⟩
    refine ⟨answer :: new, by simp [hn], ?_, ?_⟩
    · simpa only [List.append_assoc, List.cons_append, List.nil_append] using hfinal
    · simpa only [List.append_assoc, List.cons_append, List.nil_append] using hs2

theorem askExpiring_goes (hi : Invokes invoke) (frame : Account) (hl : level ≤ w.calls.length + 1)
    {value : ν} {policy : Policy η}
    (hlaw : (w.line (.offered g key value policy)).Lawful w.journal) :
    (askExpiring invoke g key value policy).Goes level frame w (fun _ => frame) fun answers w' _ =>
      answers.length = w.cache.expiring.length ∧
        Heard (w.line (.offered g key value policy)) w.journal
          (votes key value policy w.cache.expiring answers) w' := by
  unfold askExpiring
  refine .note rfl hlaw (.plain rfl rfl) ?_
  exact ask_goes hi frame (w.line (.offered g key value policy)) rfl w.cache.expiring [] []
    (w.note _) hl rfl rfl ⟨rfl, .start _ _⟩

theorem tellExpired_goes (hi : Invokes invoke) (frame : Account) (hl : level ≤ w.calls.length + 1)
    {value : ν} {initial : Disposal}
    (hlaw : (w.line (.announced g key value initial)).Lawful w.journal) :
    (tellExpired invoke g key value initial).Goes level frame w (fun _ => frame)
      fun final w' _ => ∃ answers, answers.length = w.cache.expired.length ∧
        final = settled initial answers ∧
        Heard (w.line (.announced g key value initial)) w.journal
          (verdicts key value initial w.cache.expired answers) w' := by
  unfold tellExpired
  refine .note rfl hlaw (.plain rfl rfl) ?_
  exact tell_goes hi frame (w.line (.announced g key value initial)) rfl w.cache.expired [] []
    (w.note _) hl rfl rfl ⟨rfl, .start _ _⟩

theorem Goes.takeOut {β : Type} {a c : Account} {d : β → Account} {e : Entry ν η} {exit : Exit}
    {f : Stats → Stats} {next : Unit → Act ν η μ β} {R : β → World ν η μ → List (Line ν η) → Prop}
    (hf : w.cache.find? key = some e)
    (hlaw : ((w.change (.takeOut key f)).line (.left e.generation key e.value exit)).Lawful w.journal)
    (hb : Ledger w.calls level w.cache.settings a c True
      [(w.change (.takeOut key f)).line (.left e.generation key e.value exit)])
    (h : (next ()).Goes level c
      ((w.change (.takeOut key f)).note (.left e.generation key e.value exit)) d
      fun v w' seg =>
        R v w' (seg ++ [(w.change (.takeOut key f)).line (.left e.generation key e.value exit)])) :
    (Act.change (.takeOut key f) >>= fun _ =>
      Act.note (.left e.generation key e.value exit) >>= next).Goes level a w d R :=
  ends_change.mpr (ends_note.mpr
    (Goes.after ⟨.single (.takeOut key e exit f hf hlaw), rfl, rfl, hb⟩ h))

/-- Taking out what a round without objection was about is lawful as long as only a predicate has been
asked since. -/
theorem evicted_lawful {w' : World ν η μ} {offered : ν} {answers : List Decision}
    {rest : List (Line ν η)} {e : Entry ν η} {policy : Policy η}
    (hd : w.journal = w.line (.decided e.generation key offered answers) :: rest)
    (hno : Decision.cancel ∉ answers) (hfind : w.cache.find? key = some e)
    (hp : e.policy = some policy) (hc : w'.cache = w.cache) (hn : w'.now = w.now)
    (hcalls : w'.calls = w.calls)
    (hx : FoundExpired w.now w.calls w.cache policy w.journal w'.journal) :
    ((w'.change (.takeOut key .expiration)).line
      (.left e.generation key e.value .expired)).Lawful w'.journal := by
  refine ⟨w.line (.decided e.generation key offered answers), rest, offered, answers, e, policy, rfl,
    hno, hn.symm, hcalls.symm, hfind, rfl, rfl, hp, ?_, ?_⟩
  · show w'.cache.takeOut key .expiration = w.cache.takeOut key .expiration
    rw [hc]
  · show FoundExpired w'.now w'.calls w.cache policy _ w'.journal
    rw [hn, hcalls, ← hd]
    exact hx

/-- An eviction that handlers have not been told of yet. -/
def evictedAccount {α : Type} (g : Nat) : Option α → Account
  | some _ => ⟨[], [g]⟩
  | none => .clear

theorem commit_goes (host : Host ν η μ) (level : Nat) {offered : ν} {answers : List Decision}
    {rest : List (Line ν η)} (hd : w.journal = w.line (.decided g key offered answers) :: rest)
    (hno : Decision.cancel ∉ answers) :
    (commit host key g).Goes level .clear w (evictedAccount g) fun r w' seg =>
      (r = none → ∀ e, w'.cache.insertion? key g = some e → e.due w'.now = false) ∧
      ∀ gone, r = some gone → gone.generation = g ∧ ∃ l before, w'.journal = l :: before ∧ l ∈ seg ∧
        l.record = .left g key gone.value .expired ∧ l.calls = w'.calls := by
  have nothing : ∀ w' : World ν η μ,
      (∀ e, w'.cache.insertion? key g = some e → e.due w'.now = false) → ∀ old,
      (pure none : Act ν η μ (Option (Entry ν η))).Goes level .clear
      w' (evictedAccount g) fun r w' seg =>
      (r = none → ∀ e, w'.cache.insertion? key g = some e → e.due w'.now = false) ∧
      ∀ gone, r = some gone → gone.generation = g ∧ ∃ l before, w'.journal = l :: before ∧
        l ∈ seg ++ old ∧ l.record = .left g key gone.value .expired ∧ l.calls = w'.calls := by
    intro w' hdue old
    refine .pure rfl ⟨fun _ => hdue, ?_⟩
    intro gone h
    cases h
  have only : ∀ e e' : Entry ν η, w.cache.insertion? key g = some e →
      w.cache.insertion? key g = some e' → e = e' := by
    intro e e' he he'
    exact Option.some.inj (he.symm.trans he')
  unfold commit
  refine Goes.cache ?_
  cases hf : w.cache.insertion? key g with
  | none =>
    refine (nothing w ?_ []).imp fun _ _ seg _ h => by rwa [List.append_nil] at h
    intro e he
    rw [hf] at he
    cases he
  | some e =>
    obtain ⟨hfind, hg⟩ := Cache.insertion?_eq_some.mp hf
    cases hp : e.policy with
    | none =>
      simp only [hp]
      refine (nothing w ?_ []).imp fun _ _ seg _ h => by rwa [List.append_nil] at h
      intro e' he'
      rw [← only e e' hf he']
      exact Entry.due_eq_false_of_policy hp w.now
    | some policy =>
      simp only [hp]
      refine .bind (expired_goes host w level e) ?_
      rintro found w1 seg hr ⟨hc, hn, hfound, hlate⟩
      cases found with
      | false =>
        refine nothing w1 ?_ seg
        intro e' he'
        rw [hc] at he'
        rw [← only e e' hf he', hn]
        exact hlate rfl
      | true =>
        obtain ⟨p, hp', hx⟩ := hfound rfl
        obtain rfl : policy = p := Option.some.inj (hp.symm.trans hp')
        subst hg
        rw [if_pos rfl]
        have hfind1 : w1.cache.find? key = some e := by
          rw [hc]
          exact hfind
        have hlaw := evicted_lawful hd hno hfind hp hc hn hr.calls hx
        refine Goes.takeOut hfind1 hlaw (.evicted rfl rfl) (.pure rfl ⟨?_, ?_⟩)
        · intro h
          cases h
        · intro gone h
          cases h
          exact ⟨rfl, _, _, rfl, List.mem_cons_self .., rfl, rfl⟩

theorem disposeEvicted_goes (hi : Invokes invoke) (hl : level ≤ w.calls.length + 2)
    {gone : Entry ν η} {l : Line ν η} {before : List (Line ν η)} (hj : w.journal = l :: before)
    (hrec : l.record = .left gone.generation key gone.value .expired) (hcalls : l.calls = w.calls) :
    (disposeEvicted invoke key gone).Goes level ⟨[], [gone.generation]⟩ w (fun _ => .clear)
      fun _ _ _ => True := by
  unfold disposeEvicted
  show (during (.telling key gone.generation) (tellExpired invoke gone.generation key gone.value
    (.ofBool w.cache.settings.dispose)) >>= _ : Act ν η μ Unit).Goes _ _ _ _ _
  have hnews : ((w.push (.telling key gone.generation)).line (.announced gone.generation key
      gone.value (.ofBool w.cache.settings.dispose))).Lawful
      (w.push (.telling key gone.generation)).journal :=
    ⟨l, before, hj, hrec, by rw [hcalls]; rfl, rfl⟩
  refine .bind (Goes.during rfl (tellExpired_goes hi ⟨[], [gone.generation]⟩ hl hnews)) ?_
  rintro final w1 seg hr ⟨w0, rfl, hj1, answers, hlen, hfinal, hheard⟩
  have hlaw : (w0.pop.line (.disposed gone.generation key final)).Lawful w0.pop.journal := by
    refine ⟨gone.value, _, answers, (w.push (.telling key gone.generation)).line (.announced
      gone.generation key gone.value (.ofBool w.cache.settings.dispose)), w.journal, rfl, ?_, hlen,
      hfinal, ?_⟩
    · show _ :: w.calls = _ :: w0.pop.calls
      rw [hr.calls]
    · rw [hj1]
      exact hheard.2
  refine .note rfl hlaw (.disposed rfl rfl) ?_
  cases final with
  | keep => exact .pure rfl trivial
  | dispose =>
    have hleft : ∃ m ∈ (w0.pop.note (.disposed gone.generation key .dispose)).journal,
        m.record = .left gone.generation key gone.value .expired := by
      refine ⟨l, List.mem_cons_of_mem _ ?_, hrec⟩
      rw [hr.journal, hj]
      exact List.mem_append_right _ (List.mem_cons_self ..)
    have hl1 : level ≤ (w0.pop.note (.disposed gone.generation key .dispose)).calls.length + 2 := by
      rw [World.calls_note, hr.calls]
      exact hl
    have hrel := release_goes hi .clear hl1 hleft
    simp only [World.cache_note, Account.owing, Account.due_clear, Account.untold_clear,
      List.append_nil] at hrel
    exact hrel

theorem Goes.deciding {α : Type} {x : Act ν η μ α} {a : Account} {b : α → Account}
    {Q : α → World ν η μ → List (Line ν η) → Prop} {e : Entry ν η}
    (hins : w.cache.insertion? key g = some e) (hp : e.pending = false)
    (h : x.Goes level a ((w.change (.mark true key g)).push (.deciding key g)) b Q) :
    (Act.deciding key g x).Goes level a w b fun v w' seg =>
      ∃ w1, w' = (w1.change (.mark false key g)).pop ∧ w'.journal = w1.journal ∧ Q v w1 seg := by
  refine Goes.bracket (.deciding key g) (.mark key g e hins hp) rfl rfl ?_ h
  intro v hv
  refine ⟨.unmark key g w.calls hv, ?_, rfl⟩
  rw [World.calls_pop, World.calls_change, hv]
  rfl

/-- The segment ends with a round over the insertion `g` of `key` that some handler vetoed. -/
def Vetoed (key : Key) (g : Nat) (value : ν) (seg : List (Line ν η)) : Prop :=
  ∃ d mid start earlier answers policy, seg = d :: (mid ++ start :: earlier) ∧
    d.record = .decided g key value answers ∧ Decision.cancel ∈ answers ∧
    start.record = .offered g key value policy

theorem Vetoed.more {value : ν} {seg : List (Line ν η)} (h : Vetoed key g value seg)
    (old : List (Line ν η)) : Vetoed key g value (seg ++ old) := by
  obtain ⟨d, mid, start, earlier, answers, policy, hseg, hd, hcancel, hstart⟩ := h
  refine ⟨d, mid, start, earlier ++ old, answers, policy, ?_, hd, hcancel, hstart⟩
  rw [hseg, List.cons_append, List.append_assoc, List.cons_append]

/-- What the expiry of the insertion `g` of `key` has come to, having written `seg`. -/
def Settles (key : Key) (g : Nat) (w' : World ν η μ) (seg : List (Line ν η)) : Fate ν → Prop
  | .evicted => ∃ l ∈ seg, l.expires g = true
  | .cancelled value => Vetoed key g value seg
  | .stale => ∀ e, w'.cache.insertion? key g = some e → e.pending = true ∨ e.due w'.now = false

theorem expire_goes (hi : Invokes invoke) (host : Host ν η μ) (hl : level ≤ w.calls.length + 1)
    (hev : evicting key w.calls = true) (g : Nat) :
    (expire host invoke key g).Goes level .clear w (fun _ => .clear) fun fate w' seg =>
      Settles key g w' seg fate := by
  unfold expire
  refine .bind (candidate?_goes host w level key g) ?_
  rintro found w1 seg1 hr1 ⟨hc1, hn1, hfound, hlate⟩
  match found, hfound, hlate with
  | none, _, hlate =>
    refine .pure rfl ?_
    intro e he
    rw [hc1] at he
    rw [hn1]
    exact hlate rfl e he
  | some (e, policy), hfound, _ =>
    have hcand := hfound e policy rfl
    have hoffer := hcand.offer_lawful hc1 hn1 hr1.calls hev
    obtain ⟨hins, hp, -, -⟩ := hcand
    rw [← hc1] at hins
    -- handlers are called one level deeper, inside the decision
    have hl1 : level ≤ ((w1.change (.mark true key g)).push (.deciding key g)).calls.length + 1 := by
      rw [World.calls_push, List.length_cons, World.calls_change, hr1.calls]
      omega
    have hround := askExpiring_goes hi .clear hl1 hoffer
    refine .bind (Goes.deciding hins hp hround) ?_
    rintro answers w2 seg2 hr2 ⟨w0, rfl, hj2, hlen, hheard⟩
    have hdecision : (((w0.change (.mark false key g)).pop).line
        (.decided g key e.value answers)).Lawful ((w0.change (.mark false key g)).pop).journal := by
      refine ⟨policy, ((w1.change (.mark true key g)).push (.deciding key g)).line
        (.offered g key e.value policy), w1.journal, rfl, ?_, hlen, ?_⟩
      · show _ :: w1.calls = _ :: (World.pop _).calls
        rw [hr2.calls]
      · rw [hj2]
        exact hheard.2
    refine .note rfl hdecision (.plain rfl rfl) ?_
    by_cases hno : Decision.cancel ∈ answers
    · rw [if_pos (List.contains_iff_mem.mpr hno)]
      refine .change (.tune _ ⟨rfl, rfl, rfl, rfl, rfl, rfl, rfl⟩) (.pure rfl ?_)
      obtain ⟨mid, hmid, -, -⟩ := hheard.2
      rw [← hj2, hr2.journal, List.append_cons] at hmid
      -- the round is all that was written while the insertion was decided about
      have hseg2 := List.append_cancel_right hmid
      refine ⟨((w0.change (.mark false key g)).pop).line (.decided g key e.value answers), mid,
        ((w1.change (.mark true key g)).push (.deciding key g)).line
          (.offered g key e.value policy), seg1, answers, policy, ?_, rfl, hno, rfl⟩
      simp [hseg2]
    · rw [if_neg (fun h => hno (List.contains_iff_mem.mp h))]
      refine .bind (commit_goes host level rfl hno) ?_
      rintro r w3 seg3 hr3 ⟨hkept, hgone⟩
      cases r with
      | none => exact .pure rfl fun e he => Or.inr (hkept rfl e he)
      | some gone =>
        obtain ⟨hgen, l, before, hj3, hmem, hrec, hcalls⟩ := hgone gone rfl
        subst hgen
        have hl3 : level ≤ w3.calls.length + 2 := by
          rw [hr3.calls, World.calls_note, hr2.calls, hr1.calls]
          omega
        refine .bind (disposeEvicted_goes hi hl3 hj3 hrec hcalls) ?_
        intro _ w4 seg4 hr4 _
        have hleft : l.expires gone.generation = true := by
          simp [Line.expires, hrec]
        refine .pure rfl ⟨l, ?_, hleft⟩
        simp [hmem]

theorem expire_runs (hi : Invokes invoke) (host : Host ν η μ) (hl : level ≤ w.calls.length + 1)
    (hev : evicting key w.calls = true) (g : Nat) : (expire host invoke key g).Runs level w :=
  (expire_goes hi host hl hev g).runs

end Act

end ExpiringCache
