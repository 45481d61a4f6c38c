import ExpiringCache.World

/-!
# What a journal says

Lines of a journal are read for one insertion, which its generation names: that it came in or left,
that a round of handlers was run over it, that its value was handed over. A round is told by the
replies that were written at its own depth since it began.

A line is lawful when the lines before it justify it. In particular handlers hear of an eviction
only right after the insertion was taken out, and it is taken out only right after a round in which
nobody objected and after its policy was found expired once more.
-/

namespace ExpiringCache

variable {ν η : Type}

abbrev Reply (ν η : Type) := (c : Callback ν η) × c.Answer

namespace Operation

/-- The operation reads the value under `key`, or looks for expired entries under every key. -/
def evicts (key : Key) : Operation ν η → Bool
  | .get k => k = key
  | .contains k => k = key
  | .fetch k _ _ => k = key
  | .race k _ _ _ => k = key
  | .sweep => true
  | _ => false

end Operation

/-- An expired entry under `key` may be evicted by this work itself; with nothing in progress it is
a tick. -/
def evicting (key : Key) : List (Activity ν η) → Bool
  | [] => true
  | .operation op :: _ => op.evicts key
  | .fetching k _ :: .operation op :: _ => k = key && op.evicts key
  | _ => false

namespace Line

def inserts (g : Nat) (l : Line ν η) : Bool :=
  match l.record with
  | .inserted h _ _ => h == g
  | _ => false

def leaves (g : Nat) (l : Line ν η) : Bool :=
  match l.record with
  | .left h _ _ _ => h == g
  | _ => false

def expires (g : Nat) (l : Line ν η) : Bool :=
  match l.record with
  | .left h _ _ .expired => h == g
  | _ => false

/-- The insertion leaves, but not by expiry. -/
def withdraws (g : Nat) (l : Line ν η) : Bool :=
  match l.record with
  | .left _ _ _ .expired => false
  | .left h _ _ _ => h == g
  | _ => false

def announces (g : Nat) (l : Line ν η) : Bool :=
  match l.record with
  | .announced h _ _ _ => h == g
  | _ => false

def disposes (g : Nat) (l : Line ν η) : Bool :=
  match l.record with
  | .disposed h _ _ => h == g
  | _ => false

/-- The handlers leave the value to be handed over. -/
def condemns (g : Nat) (l : Line ν η) : Bool :=
  match l.record with
  | .disposed h _ .dispose => h == g
  | _ => false

def handsOver (g : Nat) (l : Line ν η) : Bool :=
  match l.record, l.calls with
  | .entered (.release ..), .releasing _ h :: _ => h == g
  | _, _ => false

def unwinds (l : Line ν η) : Bool :=
  match l.record with
  | .unwound _ => true
  | _ => false

/-- From here on the value may be handed over. -/
def claims (g : Nat) (l : Line ν η) : Bool := l.withdraws g || l.disposes g

/-- From here on the value is to be handed over. -/
def owes (s : Settings η) (g : Nat) (l : Line ν η) : Bool :=
  s.release.isSome && (s.dispose && l.withdraws g || l.condemns g)

def reply? (depth : Nat) (l : Line ν η) : Option (Reply ν η) :=
  match l.record with
  | .returned c answer => if l.calls.length = depth then some ⟨c, answer⟩ else none
  | _ => none

end Line

/-- What callbacks returned at this depth, oldest first. -/
def replies (depth : Nat) (seg : List (Line ν η)) : List (Reply ν η) :=
  (seg.filterMap (·.reply? depth)).reverse

theorem replies_append (depth : Nat) (new old : List (Line ν η)) :
    replies depth (new ++ old) = replies depth old ++ replies depth new := by
  simp only [replies, List.filterMap_append, List.reverse_append]

theorem replies_eq_nil {depth : Nat} {seg : List (Line ν η)}
    (h : ∀ l ∈ seg, l.reply? depth = none) : replies depth seg = [] := by
  unfold replies
  rw [List.filterMap_eq_nil_iff.mpr h]
  rfl

/-- The replies of handlers that may veto. -/
def votes (key : Key) (value : ν) (policy : Policy η) (handlers : List η)
    (answers : List Decision) : List (Reply ν η) :=
  List.zipWith (fun h a => ⟨.expiring h key value policy, a⟩) handlers answers

/-- The replies of handlers that are told of an eviction, each of which hears what the one before it
decided. -/
def verdicts (key : Key) (value : ν) : Disposal → List η → List Disposal → List (Reply ν η)
  | running, h :: handlers, a :: answers =>
    ⟨.expired h key value running, a⟩ :: verdicts key value a handlers answers
  | _, _, _ => []

/-- What the last of the handlers decided. -/
def settled (initial : Disposal) (answers : List Disposal) : Disposal :=
  answers.foldl (fun _ a => a) initial

theorem votes_snoc {key : Key} {value : ν} {policy : Policy η} {asked : List η}
    {answers : List Decision} (h : answers.length = asked.length) (handler : η) (a : Decision) :
    votes key value policy (asked ++ [handler]) (answers ++ [a]) =
      votes key value policy asked answers ++ [⟨.expiring handler key value policy, a⟩] := by
  unfold votes
  rw [List.zipWith_append h.symm]
  rfl

theorem verdicts_snoc {key : Key} {value : ν} (initial : Disposal) (told : List η)
    (answers : List Disposal) (h : answers.length = told.length) (handler : η) (a : Disposal) :
    verdicts key value initial (told ++ [handler]) (answers ++ [a]) =
      verdicts key value initial told answers ++
        [⟨.expired handler key value (settled initial answers), a⟩] := by
  induction told generalizing initial answers with
  | nil =>
    have h0 : answers = [] := List.length_eq_zero_iff.mp h
    subst h0
    rfl
  | cons t told ih =>
    cases answers with
    | nil => simp at h
    | cons b answers =>
      have hl : answers.length = told.length := by simpa using h
      have hi := ih b answers hl
      simp only [List.cons_append, verdicts]
      rw [hi]
      rfl

theorem settled_snoc (initial : Disposal) (answers : List Disposal) (a : Disposal) :
    settled initial (answers ++ [a]) = a := by
  simp [settled, List.foldl_append]

/-- Since `start` everything was written inside the work that wrote it, where the callbacks
returned `said`. -/
def Since (start : Line ν η) (rest : List (Line ν η)) (said : List (Reply ν η))
    (before : List (Line ν η)) : Prop :=
  ∃ mid, before = mid ++ start :: rest ∧ (∀ l ∈ mid, start.calls <:+ l.calls) ∧
    replies start.calls.length mid = said

theorem Since.start (start : Line ν η) (rest : List (Line ν η)) :
    Since start rest [] (start :: rest) := by
  refine ⟨[], rfl, ?_, rfl⟩
  intro l hl
  cases hl

theorem Since.more {start : Line ν η} {rest before seg : List (Line ν η)}
    {said new : List (Reply ν η)} (h : Since start rest said before)
    (hin : ∀ l ∈ seg, start.calls <:+ l.calls) (hnew : replies start.calls.length seg = new) :
    Since start rest (said ++ new) (seg ++ before) := by
  obtain ⟨mid, hb, hmid, hs⟩ := h
  refine ⟨seg ++ mid, ?_, ?_, ?_⟩
  · rw [hb, List.append_assoc]
  · intro l hl
    rcases List.mem_append.mp hl with hl | hl
    · exact hin l hl
    · exact hmid l hl
  · rw [replies_append, hs, hnew]

theorem Since.suffix {start : Line ν η} {rest before : List (Line ν η)}
    {said : List (Reply ν η)} (h : Since start rest said before) : start :: rest <:+ before := by
  obtain ⟨mid, hb, -, -⟩ := h
  exact ⟨mid, hb.symm⟩

/-- Between `earlier` and `later` the policy was found expired; a predicate is asked for that. -/
def FoundExpired (now : Instant) (calls : List (Activity ν η)) (cache : Cache ν η) :
    Policy η → List (Line ν η) → List (Line ν η) → Prop
  | .custom predicate, earlier, later =>
    later = ⟨.consulted predicate (some true), now, calls, cache⟩ :: earlier
  | policy, earlier, later => later = earlier ∧ Policy.reached policy.deadline? now = true

namespace Line

/-- A round is offered about an entry that is stored, expired and now marked. -/
def OfferLawful (l : Line ν η) (g : Nat) (key : Key) (value : ν) (policy : Policy η)
    (before : List (Line ν η)) : Prop :=
  ∃ outer cache earlier e, l.calls = .deciding key g :: outer ∧ evicting key outer = true ∧
    cache.find? key = some e ∧ e.generation = g ∧ e.value = value ∧ e.policy = some policy ∧
    e.pending = false ∧ l.cache = cache.mark true key g ∧
    FoundExpired l.now outer cache policy earlier before

/-- A handler is asked in its turn. -/
def AskLawful (l : Line ν η) (handler : η) (key : Key) (value : ν) (policy : Policy η)
    (before : List (Line ν η)) : Prop :=
  ∃ g start rest asked answers more, start.record = .offered g key value policy ∧
    start.calls = l.calls ∧ start.cache.expiring = asked ++ handler :: more ∧
    answers.length = asked.length ∧ Since start rest (votes key value policy asked answers) before

/-- A round ends when every handler has answered. -/
def DecisionLawful (l : Line ν η) (g : Nat) (key : Key) (value : ν) (answers : List Decision)
    (before : List (Line ν η)) : Prop :=
  ∃ policy start rest, start.record = .offered g key value policy ∧
    start.calls = .deciding key g :: l.calls ∧ answers.length = start.cache.expiring.length ∧
    Since start rest (votes key value policy start.cache.expiring answers) before

/-- An insertion expires right after a round without objection, if it is stored and expired then. -/
def ExpiryLawful (l : Line ν η) (g : Nat) (key : Key) (value : ν)
    (before : List (Line ν η)) : Prop :=
  ∃ d rest offered answers e policy, d.record = .decided g key offered answers ∧
    Decision.cancel ∉ answers ∧ d.now = l.now ∧ d.calls = l.calls ∧
    d.cache.find? key = some e ∧ e.generation = g ∧ e.value = value ∧ e.policy = some policy ∧
    l.cache = d.cache.takeOut key .expiration ∧
    FoundExpired l.now l.calls d.cache policy (d :: rest) before

/-- Handlers are told of an eviction right after it. -/
def AnnouncementLawful (l : Line ν η) (g : Nat) (key : Key) (value : ν) (initial : Disposal)
    (before : List (Line ν η)) : Prop :=
  ∃ gone rest, before = gone :: rest ∧ gone.record = .left g key value .expired ∧
    l.calls = .telling key g :: gone.calls ∧ initial = .ofBool l.cache.settings.dispose

/-- A handler is told in its turn. -/
def NewsLawful (l : Line ν η) (handler : η) (key : Key) (value : ν) (running : Disposal)
    (before : List (Line ν η)) : Prop :=
  ∃ g initial start rest told answers more, start.record = .announced g key value initial ∧
    start.calls = l.calls ∧ start.cache.expired = told ++ handler :: more ∧
    answers.length = told.length ∧ running = settled initial answers ∧
    Since start rest (verdicts key value initial told answers) before

/-- What becomes of the value is settled when every handler has been told. -/
def DisposalLawful (l : Line ν η) (g : Nat) (key : Key) (final : Disposal)
    (before : List (Line ν η)) : Prop :=
  ∃ value initial answers start rest, start.record = .announced g key value initial ∧
    start.calls = .telling key g :: l.calls ∧ answers.length = start.cache.expired.length ∧
    final = settled initial answers ∧
    Since start rest (verdicts key value initial start.cache.expired answers) before

/-- Only a value that has left is handed over. -/
def ReleaseLawful (l : Line ν η) (handler : η) (key : Key) (value : ν)
    (before : List (Line ν η)) : Prop :=
  ∃ g outer exit, l.calls = .releasing key g :: outer ∧ l.cache.settings.release = some handler ∧
    ∃ gone ∈ before, gone.record = .left g key value exit

/-- The lines before `l` justify it. -/
def Lawful (l : Line ν η) (before : List (Line ν η)) : Prop :=
  match l.record with
  | .entered (.expiring handler key value policy) => l.AskLawful handler key value policy before
  | .entered (.expired handler key value running) => l.NewsLawful handler key value running before
  | .entered (.release handler key value) => l.ReleaseLawful handler key value before
  | .offered g key value policy => l.OfferLawful g key value policy before
  | .decided g key value answers => l.DecisionLawful g key value answers before
  | .left g key value .expired => l.ExpiryLawful g key value before
  | .announced g key value initial => l.AnnouncementLawful g key value initial before
  | .disposed g key final => l.DisposalLawful g key final before
  | _ => True

end Line

end ExpiringCache
