import ExpiringCache.World

/-!
# The timed map

What a cache is to those who read it: a map in which a key is present as long as the clock has not
reached its deadline. Nothing is ever evicted from it; sweeps and ticks of a timer do nothing. What
the host supplies during an operation, a value made or a policy given, is read off the operation's
part of the journal.
-/

namespace ExpiringCache

variable {ν η : Type}

structure Timed (ν : Type) where
  value : ν
  /-- A hit moves the deadline to one window from then. -/
  window : Option Span
  deadline : Option Instant

namespace Timed

def live (now : Instant) (x : Timed ν) : Bool :=
  match x.deadline with
  | none => true
  | some d => now < d

def hit (now : Instant) (x : Timed ν) : Timed ν :=
  match x.window with
  | none => x
  | some span => { x with deadline := now.plus? span }

/-- A value stored at `now`. -/
def start (now : Instant) (value : ν) : Option (Policy η) → Timed ν
  | some (.absolute d) => ⟨value, none, d⟩
  | some (.sliding span _) => ⟨value, some span, now.plus? span⟩
  | some (.duration span _) => ⟨value, none, now.plus? span⟩
  | _ => ⟨value, none, none⟩

theorem live_of_le {t u : Instant} (h : t ≤ u) {x : Timed ν} (hx : x.live u = true) :
    x.live t = true := by
  unfold live at *
  cases hd : x.deadline with
  | none => rfl
  | some d =>
    rw [hd] at hx
    simp only [decide_eq_true_eq, Instant.lt_def, Instant.le_def] at *
    omega

end Timed

/-- What the host supplied during an operation, and when it last did. -/
structure Supply (ν η : Type) where
  made : Option (Except String ν)
  policy : Option (Option (Policy η))
  time : Instant

namespace Line

def made? (l : Line ν η) : Option (Except String ν) :=
  match l.record with
  | .returned (.factory ..) answer => some answer
  | _ => none

def policy? (l : Line ν η) : Option (Option (Policy η)) :=
  match l.record with
  | .returned (.defaultPolicy ..) policy => some policy
  | _ => none

def supplies (l : Line ν η) : Bool := l.made?.isSome || l.policy?.isSome

/-- A value is stored. -/
def stores (l : Line ν η) : Bool :=
  match l.record with
  | .inserted .. => true
  | _ => false

end Line

/-- The supply of an operation that began at `start` and wrote `seg`. -/
def Supply.of (start : Instant) (seg : List (Line ν η)) : Supply ν η where
  made := seg.findSome? (·.made?)
  policy := seg.findSome? (·.policy?)
  time := ((seg.find? (·.supplies)).map (·.now)).getD start

def TimedMap (ν : Type) := Key → Option (Timed ν)

/-- What an operation shows of the map. -/
inductive Shown (ν : Type) where
  | answer (a : Answer ν)
  | present (keys : Key → Bool)
  /-- The map leaves the answer open. -/
  | anything
  /-- No answer is right. -/
  | nothing

def Shown.Matches : Shown ν → Answer ν → Prop
  | .answer a, b => b = a
  | .present p, .keys ks => ks.Nodup ∧ ∀ k, k ∈ ks ↔ p k = true
  | .present _, _ => False
  | .anything, _ => True
  | .nothing, _ => False

structure Outcome (ν : Type) where
  map : TimedMap ν
  shown : Shown ν
  /-- The operation stored a value. -/
  stored : Bool

namespace TimedMap

def empty : TimedMap ν := fun _ => none

def set (key : Key) (x : Option (Timed ν)) (m : TimedMap ν) : TimedMap ν :=
  fun k => if k = key then x else m k

def look (now : Instant) (key : Key) (m : TimedMap ν) : Option (Timed ν) := (m key).filter (·.live now)

def get (now : Instant) (key : Key) (m : TimedMap ν) : Option ν := (m.look now key).map (·.value)

/-- The map after a read at `now` that counts as an access. -/
def hit (now : Instant) (key : Key) (m : TimedMap ν) : TimedMap ν :=
  match m.look now key with
  | none => m
  | some x => m.set key (some (x.hit now))

def store (now : Instant) (key : Key) (value : ν) (policy : Option (Policy η)) (m : TimedMap ν) :
    TimedMap ν := m.set key (some (.start now value policy))

/-- The policy of an insertion: its own, or else what the host gave. -/
def policyOf (options : Options η) (supply : Supply ν η) : Option (Policy η) :=
  match options.policy with
  | some policy => some policy
  | none => supply.policy.getD none

/-- An insertion stores its value unless it would overwrite a live one unasked. -/
def insert (key : Key) (value : ν) (options : Options η) (supply : Supply ν η) (m : TimedMap ν) :
    Outcome ν :=
  if !options.overwrite && (m.look supply.time key).isSome then ⟨m, .answer .done, false⟩
  else ⟨m.store supply.time key value (policyOf options supply), .answer .done, true⟩

/-- A fetch returns what is live under the key or else what was made, which it stores; it does not
get by without either. -/
def fetch (start : Instant) (key : Key) (options : Options η) (supply : Supply ν η)
    (m : TimedMap ν) : Outcome ν :=
  match if options.overwrite then none else m.get start key with
  | some value => ⟨m.hit start key, .answer (.fetched value), false⟩
  | none =>
    match supply.made with
    | none => ⟨m, .nothing, false⟩
    | some (.error message) => ⟨m, .answer (.refused (.factoryFailed message)), false⟩
    | some (.ok value) =>
      ⟨m.store supply.time key value (policyOf options supply), .answer (.fetched value), true⟩

/-- An operation on a key that the host does not accept is refused. -/
def keyed (accepts : Key → Bool) (key : Key) (m : TimedMap ν) (o : Outcome ν) : Outcome ν :=
  if accepts key then o else ⟨m, .answer (.refused (.error (.forKey key))), false⟩

def step (accepts : Key → Bool) (start : Instant) (supply : Supply ν η) (m : TimedMap ν) :
    Operation ν η → Outcome ν
  | .insert key value options => keyed accepts key m (m.insert key value options supply)
  | .get key => keyed accepts key m ⟨m.hit start key, .answer (.found (m.get start key)), false⟩
  | .contains key => keyed accepts key m ⟨m, .answer (.flag (m.get start key).isSome), false⟩
  | .fetch key _ options => keyed accepts key m (m.fetch start key options supply)
  | .remove key => keyed accepts key m ⟨m.set key none, .anything, false⟩
  | .clear => ⟨empty, .anything, false⟩
  | .keys => ⟨m, .present fun k => (m.get start k).isSome, false⟩
  | _ => ⟨m, .anything, false⟩

theorem look_set (now : Instant) (key k : Key) (x : Option (Timed ν)) (m : TimedMap ν) :
    (m.set key x).look now k = if k = key then x.filter (·.live now) else m.look now k := by
  unfold look set
  split <;> rfl

theorem look_later {t u : Instant} (h : t ≤ u) (key : Key) (m : TimedMap ν) :
    m.look u key = (m.look t key).filter (·.live u) := by
  unfold look
  cases m key with
  | none => rfl
  | some x =>
    cases hu : x.live u with
    | false =>
      cases ht : x.live t <;> simp [Option.filter, hu, ht]
    | true =>
      have ht := Timed.live_of_le h hu
      simp [Option.filter, hu, ht]

end TimedMap

end ExpiringCache
