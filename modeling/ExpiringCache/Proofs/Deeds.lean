import ExpiringCache.Proofs.Operations
import ExpiringCache.Proofs.Questions

/-!
# Deeds

What an operation does by itself to what is stored is a list of deeds. A deed is one change of the
entries together with the counters that belong to it, and it is made in one go. Between the deeds lie
calls of the host's functions, which may do anything, and questions to its predicates.

An operation is stopped by a function or a predicate that panics. What it has done until then are whole
deeds, and after that it does nothing but to end the work in progress: to clear the mark of a decision
and to give up a slot. Which deeds these can be depends on what it was that panicked, and is tabled
below for every operation.
-/

namespace ExpiringCache

variable {ν η μ α β : Type}

inductive Deed (ν η : Type) where
  -- over the old entry, if there was one
  | stored (now : Instant) (key : Key) (value : ν) (policy : Option (Policy η))
      (old : Option (Entry ν η))
  | evicted (key : Key) (gone : Entry ν η)
  | vetoed (key : Key)
  | removed (key : Key) (gone : Entry ν η)
  | cleared (gone : List (Key × Entry ν η))
  -- a read of a live entry ended, and any other read
  | accessed (now : Instant) (key : Key)
  | read (key : Key) (found : Bool)

namespace Deed

def on : Deed ν η → Cache ν η → Cache ν η
  | stored now key value policy _ => .insert now key value policy
  | evicted key _ => .takeOut key .expiration
  | vetoed _ => .count .cancellation
  | removed key _ => .takeOut key (.removed 1)
  | cleared _ => .drain
  | accessed now key => fun c => (c.touch now key).count .hit
  | read _ found => .count fun s => if found then s.hit else s.miss

/-- What the deed says of the world in which it is done is so. -/
def Suits (w : World ν η μ) : Deed ν η → Prop
  | stored now key _ _ old => now = w.now ∧ old = w.cache.find? key
  | evicted key gone => w.cache.find? key = some gone
  | vetoed _ => True
  | removed key gone => w.cache.find? key = some gone
  | cleared gone => gone = w.cache.entries.rows
  | accessed now _ => now = w.now
  | read _ _ => True

def key? : Deed ν η → Option Key
  | stored _ key _ _ _ => some key
  | evicted key _ => some key
  | vetoed key => some key
  | removed key _ => some key
  -- about all keys
  | cleared _ => none
  | accessed _ key => some key
  | read key _ => some key

/-- The deed ends an attempt to evict. -/
def isJudgement : Deed ν η → Bool
  | evicted .. => true
  | vetoed _ => true
  | _ => false

end Deed

/-- One of the host's functions or predicates that panicked. -/
inductive Culprit (ν η : Type) where
  | callback (c : Callback ν η)
  | predicate (predicate : η)

def Culprit.IsPredicate (k : Culprit ν η) : Prop := ∃ predicate, k = .predicate predicate

/-- Work that leads from one world to another by these deeds, and is stopped by the culprit if there is
one. No deed is done while handlers decide. -/
inductive Unfolds (host : Host ν η μ) (invoke : Invoke ν η μ) :
    Option (Culprit ν η) → List (Deed ν η) → World ν η μ → World ν η μ → Prop
  | still {w : World ν η μ} : Unfolds host invoke none [] w w
  | trans {stop : Option (Culprit ν η)} {ds es : List (Deed ν η)} {w v u : World ν η μ}
      (h : Unfolds host invoke none ds w v) (k : Unfolds host invoke stop es v u) :
      Unfolds host invoke stop (ds ++ es) w u
  | did {w : World ν η μ} (d : Deed ν η) (h : d.Suits w) :
      Unfolds host invoke none [d] w (w.change d.on)
  | returned {w v : World ν η μ} (c : Callback ν η) (a : c.Answer) (h : invoke c w = .ok a v) :
      Unfolds host invoke none [] w v
  | unwound {w v : World ν η μ} (c : Callback ν η) (message : String)
      (h : invoke c w = .error (.panic message) v) :
      Unfolds host invoke (some (.callback c)) [] w v
  | answered {w v : World ν η μ} (e : Entry ν η) (b : Bool)
      (h : Act.expired host e w = .ok b v) : Unfolds host invoke none [] w v
  | unanswered {w v : World ν η μ} (predicate : η) (message : String)
      (h : Act.consult host predicate w.now w = .error (.panic message) v) :
      Unfolds host invoke (some (.predicate predicate)) [] w v
  | note {w : World ν η μ} (r : Record ν η) : Unfolds host invoke none [] w (w.note r)
  | aside {w : World ν η μ} (f : Cache ν η → Cache ν η) (h : w.cache.Aside (f w.cache)) :
      Unfolds host invoke none [] w (w.change f)
  | during {stop : Option (Culprit ν η)} {ds : List (Deed ν η)} {w v : World ν η μ}
      (a : Activity ν η) (ha : a.isPlain = true) (h : Unfolds host invoke stop ds (w.push a) v) :
      Unfolds host invoke stop ds w v.pop
  | deciding {stop : Option (Culprit ν η)} {w v : World ν η μ} (key : Key) (g : Nat) (e : Entry ν η)
      (he : w.cache.insertion? key g = some e) (hp : e.pending = false)
      (h : Unfolds host invoke stop [] ((w.change (.mark true key g)).push (.deciding key g)) v) :
      Unfolds host invoke stop [] w ((v.change (.mark false key g)).pop)
  | holding {stop : Option (Culprit ν η)} {ds : List (Deed ν η)} {w v : World ν η μ} (key : Key)
      (acquired : Admission) (slot : Nat)
      (ha : w.cache.admission.acquire? key = some (acquired, slot))
      (h : Unfolds host invoke stop ds
        ((w.change ({ · with admission := acquired })).push (.fetching key slot)) v) :
      Unfolds host invoke stop ds w
        ((v.change fun c => { c with admission := c.admission.release key slot }).pop)

/-! ## Where an operation can be stopped -/

/-- An attempt to evict what is under `key` is stopped: nothing was done until the insertion was taken
out, and all of it since. -/
inductive EvictionStops (key : Key) : Culprit ν η → List (Deed ν η) → Prop
  | asking (predicate : η) : EvictionStops key (.predicate predicate) []
  | deciding (handler : η) (value : ν) (policy : Policy η) :
      EvictionStops key (.callback (.expiring handler key value policy)) []
  | telling (handler : η) (gone : Entry ν η) (running : Disposal) :
      EvictionStops key (.callback (.expired handler key gone.value running)) [.evicted key gone]
  | releasing (handler : η) (gone : Entry ν η) :
      EvictionStops key (.callback (.release handler key gone.value)) [.evicted key gone]

/-- An insertion is stopped: before it was made, or after it was made while what it replaced is handed
over. -/
inductive InsertionStops (key : Key) (value : ν) (options : Options η) :
    Culprit ν η → List (Deed ν η) → Prop
  | lacking (handler : η) (h : options.policy = none) :
      InsertionStops key value options (.callback (.defaultPolicy handler key)) []
  | asking (predicate : η) (h : options.overwrite = false) :
      InsertionStops key value options (.predicate predicate) []
  | releasing (handler : η) (now : Instant) (policy : Option (Policy η)) (old : Entry ν η)
      (h : options.policy.isSome = true → policy = options.policy) :
      InsertionStops key value options (.callback (.release handler key old.value))
        [.stored now key value policy (some old)]

/-- A read that found nothing. -/
inductive Missing (key : Key) : List (Deed ν η) → Prop
  | absent : Missing key [.read key false]
  | evicted (gone : Entry ν η) : Missing key [.evicted key gone, .read key false]

/-- What a fetch has done before it has a value made. -/
def Options.Lacks (options : Options η) (key : Key) (ds : List (Deed ν η)) : Prop :=
  if options.overwrite then ds = [] else Missing key ds

inductive FetchStops (key : Key) (factory : η) (options : Options η) :
    Culprit ν η → List (Deed ν η) → Prop
  | reading {k : Culprit ν η} {ds : List (Deed ν η)} (ho : options.overwrite = false)
      (h : EvictionStops key k ds) : FetchStops key factory options k ds
  | making {ds : List (Deed ν η)} (hr : options.Lacks key ds) :
      FetchStops key factory options (.callback (.factory factory key)) ds
  | storing {k : Culprit ν η} {ds es : List (Deed ν η)} (value : ν) (hr : options.Lacks key ds)
      (h : InsertionStops key value { options with overwrite := true } k es) :
      FetchStops key factory options k (ds ++ es)

/-- All entries were taken out, and then the release of one of their values panicked. -/
inductive ClearingStops : Culprit ν η → List (Deed ν η) → Prop
  | releasing (handler : η) (gone : List (Key × Entry ν η)) (key : Key) (e : Entry ν η)
      (h : (key, e) ∈ gone) :
      ClearingStops (.callback (.release handler key e.value)) [.cleared gone]

/-- A sweep is stopped while it lists, or in an attempt after others on other keys came to their ends. -/
inductive SweepStops : Culprit ν η → List (Deed ν η) → Prop
  | listing (predicate : η) : SweepStops (.predicate predicate) []
  | evicting {k : Culprit ν η} {ds : List (Deed ν η)} (key : Key) (done : List (Deed ν η))
      (hd : ∀ d ∈ done, d.isJudgement = true ∧ d.key? ≠ some key) (h : EvictionStops key k ds) :
      SweepStops k (done ++ ds)

/-- What an operation has done when it is stopped by `k`. -/
inductive Operation.Stops : Operation ν η → Culprit ν η → List (Deed ν η) → Prop
  | insert {key : Key} {value : ν} {options : Options η} {k : Culprit ν η} {ds : List (Deed ν η)}
      (h : InsertionStops key value options k ds) : Stops (.insert key value options) k ds
  | get {key : Key} {k : Culprit ν η} {ds : List (Deed ν η)} (h : EvictionStops key k ds) :
      Stops (.get key) k ds
  | contains {key : Key} {k : Culprit ν η} {ds : List (Deed ν η)} (h : EvictionStops key k ds) :
      Stops (.contains key) k ds
  | fetch {key : Key} {factory : η} {options : Options η} {k : Culprit ν η} {ds : List (Deed ν η)}
      (h : FetchStops key factory options k ds) : Stops (.fetch key factory options) k ds
  -- some of the callers are done
  | race {key : Key} {factory : η} {options : Options η} {callers : Nat} {k : Culprit ν η}
      {ds : List (Deed ν η)} (done : List (Deed ν η)) (hd : ∀ d ∈ done, d.key? = some key)
      (h : FetchStops key factory options k ds) : Stops (.race key factory options callers) k (done ++ ds)
  | remove {key : Key} (handler : η) (gone : Entry ν η) :
      Stops (.remove key) (.callback (.release handler key gone.value)) [.removed key gone]
  | clear {k : Culprit ν η} {ds : List (Deed ν η)} (h : ClearingStops k ds) : Stops .clear k ds
  | sweep {k : Culprit ν η} {ds : List (Deed ν η)} (h : SweepStops k ds) : Stops .sweep k ds
  | keys (predicate : η) : Stops .keys (.predicate predicate) []

/-- An operation panics: its own work was stopped, or the closing of the cache after it was, or both. -/
inductive Operation.Unwinds (host : Host ν η μ) (invoke : Invoke ν η μ) (op : Operation ν η)
    (w : World ν η μ) : World ν η μ → Prop
  | working {k : Culprit ν η} {ds closing : List (Deed ν η)} {v u : World ν η μ}
      (h : Unfolds host invoke (some k) ds (w.push (.operation op)) v) (hk : op.Stops k ds)
      (hc : Unfolds host invoke none closing v.pop u)
      (hclose : closing = [] ∨ ∃ gone, closing = [.cleared gone]) :
      Unwinds host invoke op w (u.note (.finished op))
  | closing {stop : Option (Culprit ν η)} {k : Culprit ν η} {ds closing : List (Deed ν η)}
      {v u : World ν η μ} (h : Unfolds host invoke stop ds (w.push (.operation op)) v)
      (hk : ∀ j, stop = some j → op.Stops j ds)
      (hc : Unfolds host invoke (some k) closing v.pop u) (hclose : ClearingStops k closing) :
      Unwinds host invoke op w (u.note (.finished op))

/-- How an operation on an open cache ends: if it returns then nothing stopped it. -/
def Operation.Concludes (host : Host ν η μ) (invoke : Invoke ν η μ) (op : Operation ν η)
    (w : World ν η μ) : Except Halt (Answer ν) → World ν η μ → Prop
  | .ok _, v => ∃ ds closing u x, Unfolds host invoke none ds (w.push (.operation op)) u ∧
      Unfolds host invoke none closing u.pop x ∧ (closing = [] ∨ ∃ gone, closing = [.cleared gone]) ∧
      v = x.note (.finished op)
  | .error (.panic _), v => op.Unwinds host invoke w v
  | .error .exhausted, _ => True

/-! ## Work as deeds -/

/-- What was done until work ended: `P` tells it by the answer, and `K` by the culprit. -/
def Fares (host : Host ν η μ) (invoke : Invoke ν η μ) (w : World ν η μ)
    (P : α → List (Deed ν η) → Prop) (K : Culprit ν η → List (Deed ν η) → Prop) :
    Except Halt α → World ν η μ → Prop
  | .ok a, v => ∃ ds, Unfolds host invoke none ds w v ∧ P a ds
  | .error (.panic _), v => ∃ k ds, Unfolds host invoke (some k) ds w v ∧ K k ds
  | .error .exhausted, _ => True

/-- Work in which nothing is done, and in which `J` may panic. -/
abbrev Idles (host : Host ν η μ) (invoke : Invoke ν η μ) (w : World ν η μ) (J : Culprit ν η → Prop) :
    Except Halt α → World ν η μ → Prop :=
  Fares host invoke w (fun _ ds => ds = []) fun k ds => ds = [] ∧ J k

section

variable {host : Host ν η μ} {invoke : Invoke ν η μ}

/-- The outcome as seen from a world before, or from outside of a bracket. -/
theorem Fares.map {r : Except Halt α} {w w' v v' : World ν η μ} {P P' : α → List (Deed ν η) → Prop}
    {J K : Culprit ν η → List (Deed ν η) → Prop} (h : Fares host invoke w P J r v)
    (pre : List (Deed ν η)) (hd : ∀ stop ds, Unfolds host invoke stop ds w v →
      Unfolds host invoke stop (pre ++ ds) w' v')
    (hp : ∀ a ds, P a ds → P' a (pre ++ ds)) (hk : ∀ k ds, J k ds → K k (pre ++ ds)) :
    Fares host invoke w' P' K r v' := by
  match r, h with
  | .ok a, ⟨ds, hu, hpa⟩ => exact ⟨pre ++ ds, hd none ds hu, hp a ds hpa⟩
  | .error (.panic _), ⟨k, ds, hu, hj⟩ => exact ⟨k, pre ++ ds, hd (some k) ds hu, hk k ds hj⟩
  | .error .exhausted, _ => trivial

theorem Fares.failed {halt : Halt} {w v : World ν η μ} {P : α → List (Deed ν η) → Prop}
    {Q : β → List (Deed ν η) → Prop} {J K : Culprit ν η → List (Deed ν η) → Prop}
    (h : Fares host invoke w P J (.error halt) v) (hk : ∀ k ds, J k ds → K k ds) :
    Fares host invoke w Q K (.error halt) v := by
  match halt, h with
  | .panic _, ⟨k, ds, hu, hj⟩ => exact ⟨k, ds, hu, hk k ds hj⟩
  | .exhausted, _ => trivial

namespace Act

variable {x : Act ν η μ α} {f : α → Act ν η μ β} {w v : World ν η μ}
  {P P' : α → List (Deed ν η) → Prop} {Q : β → List (Deed ν η) → Prop}
  {J K : Culprit ν η → List (Deed ν η) → Prop} {C : Culprit ν η → Prop}

theorem Ends.fares (h : x.Ends w (Fares host invoke w P J)) (hp : ∀ a ds, P a ds → P' a ds)
    (hk : ∀ k ds, J k ds → K k ds) : x.Ends w (Fares host invoke w P' K) :=
  h.mono fun _ _ hr => hr.map [] (fun _ _ hu => hu) hp hk

/-- What was done first comes before what is done then. -/
theorem Ends.since {ds : List (Deed ν η)} (hd : Unfolds host invoke none ds w v)
    (h : x.Ends v (Fares host invoke v (fun a es => P a (ds ++ es)) fun k es => K k (ds ++ es))) :
    x.Ends v (Fares host invoke w P K) :=
  h.mono fun _ _ hr => hr.map ds (fun _ _ hu => hd.trans hu) (fun _ _ hp => hp) fun _ _ hk => hk

theorem Ends.still (hd : Unfolds host invoke none [] w v) (h : x.Ends v (Fares host invoke v P K)) :
    x.Ends v (Fares host invoke w P K) := Ends.since hd h

theorem fares_bind (h : x.Ends w (Fares host invoke w P J)) (hk : ∀ k ds, J k ds → K k ds)
    (hf : ∀ a ds v, P a ds → (f a).Ends v
      (Fares host invoke v (fun b es => Q b (ds ++ es)) fun k es => K k (ds ++ es))) :
    (x >>= f).Ends w (Fares host invoke w Q K) := by
  refine h.bind ?_ fun _ _ hr => hr.failed hk
  rintro a v ⟨ds, hd, hp⟩
  exact Ends.since hd (hf a ds v hp)

theorem idles_bind (h : x.Ends w (Idles host invoke w C)) (hk : ∀ k, C k → K k [])
    (hf : ∀ a v, (f a).Ends v (Fares host invoke v Q K)) :
    (x >>= f).Ends w (Fares host invoke w Q K) := by
  apply fares_bind h
  · rintro k ds ⟨rfl, hj⟩
    exact hk k hj
  · rintro a ds v rfl
    exact hf a v

theorem fares_pure {a : α} (h : P a []) :
    (Pure.pure a : Act ν η μ α).Ends w (Fares host invoke w P K) := ⟨[], .still, h⟩

theorem fares_note {r : Record ν η} {f : Unit → Act ν η μ β}
    (h : (f ()).Ends (w.note r) (Fares host invoke (w.note r) Q K)) :
    (Act.note r >>= f).Ends w (Fares host invoke w Q K) :=
  ends_note.mpr (Ends.still (.note r) h)

theorem fares_aside {t : Cache ν η → Cache ν η} {f : Unit → Act ν η μ β}
    (ht : w.cache.Aside (t w.cache))
    (h : (f ()).Ends (w.change t) (Fares host invoke (w.change t) Q K)) :
    (Act.change t >>= f).Ends w (Fares host invoke w Q K) :=
  ends_change.mpr (Ends.still (.aside t ht) h)

theorem fares_during {a : Activity ν η} (ha : a.isPlain = true)
    (h : ∀ v, x.Ends v (Fares host invoke v P K)) :
    (during a x).Ends w (Fares host invoke w P K) :=
  ends_bracket ((h (w.push a)).mono fun _ _ hr =>
    hr.map [] (fun _ _ hu => hu.during a ha) (fun _ _ hp => hp) fun _ _ hk => hk)

theorem idles_deciding {key : Key} {g : Nat} {e : Entry ν η}
    (he : w.cache.insertion? key g = some e) (hp : e.pending = false)
    (h : ∀ v, x.Ends v (Idles host invoke v C)) :
    (deciding key g x).Ends w (Idles host invoke w C) := by
  refine ends_bracket ((h _).mono ?_)
  intro r v hr
  match r, hr with
  | .ok b, ⟨_, hd, rfl⟩ => exact ⟨[], hd.deciding key g e he hp, rfl⟩
  | .error (.panic _), ⟨k, _, hd, rfl, hk⟩ => exact ⟨k, [], hd.deciding key g e he hp, rfl, hk⟩
  | .error .exhausted, _ => trivial

theorem fares_holding {key : Key} {acquired : Admission} {slot : Nat}
    (ha : w.cache.admission.acquire? key = some (acquired, slot))
    (h : ∀ v, x.Ends v (Fares host invoke v P K)) :
    (holding key acquired slot x).Ends w (Fares host invoke w P K) :=
  ends_bracket ((h _).mono fun _ _ hr =>
    hr.map [] (fun _ _ hu => hu.holding key acquired slot ha) (fun _ _ hp => hp) fun _ _ hk => hk)

theorem invoke_idles (c : Callback ν η) (w : World ν η μ) :
    (invoke c).Ends w (Idles host invoke w (· = .callback c)) := by
  unfold Ends
  cases h : invoke c w with
  | ok a v => exact ⟨[], .returned c a h, rfl⟩
  | error e v =>
    cases e with
    | panic message => exact ⟨.callback c, [], .unwound c message h, rfl, rfl⟩
    | exhausted => trivial

theorem idles_mapM {f : α → Act ν η μ β} (xs : List α)
    (h : ∀ a w, (f a).Ends w (Idles host invoke w C)) :
    ∀ w, (xs.mapM f).Ends w (Idles host invoke w C) := by
  induction xs with
  | nil =>
    intro w
    rw [List.mapM_nil]
    exact fares_pure rfl
  | cons a xs ih =>
    intro w
    rw [List.mapM_cons]
    refine idles_bind (h a w) (fun k hk => ⟨rfl, hk⟩) fun b v => ?_
    exact idles_bind (ih v) (fun k hk => ⟨rfl, hk⟩) fun bs u => fares_pure rfl

theorem idles_foldlM {f : β → α → Act ν η μ β} (xs : List α)
    (h : ∀ b a w, (f b a).Ends w (Idles host invoke w C)) :
    ∀ b w, (xs.foldlM f b).Ends w (Idles host invoke w C) := by
  induction xs with
  | nil => exact fun b w => fares_pure rfl
  | cons a xs ih =>
    intro b w
    rw [List.foldlM_cons]
    exact idles_bind (h b a w) (fun k hk => ⟨rfl, hk⟩) ih

theorem idles_forM {f : α → Act ν η μ Unit} (xs : List α)
    (h : ∀ a ∈ xs, ∀ w, (f a).Ends w (Idles host invoke w C)) :
    ∀ w, (xs.forM f).Ends w (Idles host invoke w C) := by
  induction xs with
  | nil => exact fun w => fares_pure rfl
  | cons a xs ih =>
    intro w
    have hrest := ih fun b hb => h b (List.mem_cons_of_mem a hb)
    exact idles_bind (h a (List.mem_cons_self ..) w) (fun k hk => ⟨rfl, hk⟩) fun _ v => hrest v

theorem idles_filterM {p : α → Act ν η μ Bool} (h : ∀ a w, (p a).Ends w (Idles host invoke w C))
    (xs : List α) (w : World ν η μ) : (xs.filterM p).Ends w
      (Fares host invoke w (fun ys ds => ds = [] ∧ ys.Sublist xs) fun k ds => ds = [] ∧ C k) := by
  have loop : ∀ (xs acc : List α) (w : World ν η μ), (xs.filterAuxM p acc).Ends w (Fares host invoke w
      (fun ys ds => ds = [] ∧ ∃ kept : List α, ys = kept.reverse ++ acc ∧ kept.Sublist xs)
      fun k ds => ds = [] ∧ C k) := by
    intro xs
    induction xs with
    | nil => exact fun acc w => fares_pure ⟨rfl, [], rfl, .slnil⟩
    | cons a xs ih =>
      intro acc w
      refine idles_bind (h a w) (fun k hk => ⟨rfl, hk⟩) fun found v => ?_
      refine Ends.fares (ih (cond found (a :: acc) acc) v) ?_ fun _ _ hk => hk
      rintro ys ds ⟨rfl, kept, rfl, hs⟩
      cases found with
      | false => exact ⟨rfl, kept, rfl, hs.cons a⟩
      | true => exact ⟨rfl, a :: kept, by simp, hs.cons_cons a⟩
  apply fares_bind (loop xs [] w) (fun _ _ hk => hk)
  rintro ys ds v ⟨rfl, kept, rfl, hs⟩
  refine fares_pure ⟨rfl, ?_⟩
  simpa using hs

theorem consult_idles (predicate : η) (w : World ν η μ) :
    (consult host predicate w.now).Ends w fun r v => v.cache = w.cache ∧ ∀ halt, r = .error halt →
      ∃ message, halt = .panic message := by
  refine ends_consult (fun b m => ⟨rfl, fun halt h => nomatch h⟩) fun message m => ⟨rfl, ?_⟩
  intro halt h
  cases h
  exact ⟨message, rfl⟩

theorem expired_idles (e : Entry ν η) (w : World ν η μ) :
    (expired host e).Ends w fun r v => v.cache = w.cache ∧
      Idles host invoke w (·.IsPredicate) r v := by
  have hasked : expired host e w = e.expired (consult host) w.now w := rfl
  unfold Entry.expired at hasked
  cases hp : e.policy with
  | none =>
    rw [hp] at hasked
    unfold Ends
    rw [hasked]
    exact ⟨rfl, [], .still, rfl⟩
  | some policy =>
    rw [hp] at hasked
    cases policy with
    | custom predicate =>
      have hconsult : (consult host predicate w.now).Ends w _ := consult_idles predicate w
      unfold Ends at hconsult ⊢
      rw [show expired host e w = consult host predicate w.now w from hasked]
      cases hc : consult host predicate w.now w with
      | ok b v =>
        rw [hc] at hconsult
        exact ⟨hconsult.1, [], .answered e b (hasked.trans hc), rfl⟩
      | error halt v =>
        rw [hc] at hconsult
        obtain ⟨message, rfl⟩ := hconsult.2 halt rfl
        exact ⟨hconsult.1, _, [], .unanswered predicate message hc, rfl, predicate, rfl⟩
    | _ =>
      unfold Ends
      rw [hasked]
      exact ⟨rfl, [], .still, rfl⟩

theorem fares_expired {e : Entry ν η} {f : Bool → Act ν η μ β}
    (hk : ∀ predicate, K (.predicate predicate) [])
    (hf : ∀ b v, v.cache = w.cache → (f b).Ends v (Fares host invoke v Q K)) :
    (expired host e >>= f).Ends w (Fares host invoke w Q K) := by
  apply (@expired_idles _ _ _ host invoke e w).bind
  · rintro b v ⟨hc, ds, hd, rfl⟩
    exact Ends.still hd (hf b v hc)
  · rintro halt v ⟨-, hr⟩
    apply hr.failed
    rintro k ds ⟨rfl, predicate, rfl⟩
    exact hk predicate

/-! ## Expiry -/

theorem release_idles (key : Key) (e : Entry ν η) (w : World ν η μ) :
    (release invoke key e).Ends w
      (Idles host invoke w fun k => ∃ handler, k = .callback (.release handler key e.value)) := by
  unfold release
  apply ends_cache.mpr
  cases w.cache.settings.release with
  | none => exact fares_pure rfl
  | some handler =>
    refine fares_during rfl fun v => Ends.fares (invoke_idles _ v) (fun _ _ h => h) ?_
    rintro k ds ⟨rfl, rfl⟩
    exact ⟨rfl, handler, rfl⟩

theorem releaseIfSet_idles (key : Key) (e : Entry ν η) (w : World ν η μ) :
    (releaseIfSet invoke key e).Ends w
      (Idles host invoke w fun k => ∃ handler, k = .callback (.release handler key e.value)) := by
  unfold releaseIfSet
  apply ends_cache.mpr
  split
  · exact release_idles key e w
  · exact fares_pure rfl

theorem askExpiring_idles (g : Nat) (key : Key) (value : ν) (policy : Policy η) (w : World ν η μ) :
    (askExpiring invoke g key value policy).Ends w (Idles host invoke w fun k =>
      ∃ handler, k = .callback (.expiring handler key value policy)) := by
  unfold askExpiring
  refine fares_note (ends_cache.mpr (idles_mapM _ (fun handler v => ?_) _))
  apply Ends.fares (invoke_idles _ v) (fun _ _ h => h)
  rintro k ds ⟨rfl, rfl⟩
  exact ⟨rfl, handler, rfl⟩

theorem tellExpired_idles (g : Nat) (key : Key) (value : ν) (initial : Disposal) (w : World ν η μ) :
    (tellExpired invoke g key value initial).Ends w (Idles host invoke w fun k =>
      ∃ handler running, k = .callback (.expired handler key value running)) := by
  unfold tellExpired
  refine fares_note (ends_cache.mpr (idles_foldlM _ (fun running handler v => ?_) _ _))
  apply Ends.fares (invoke_idles (.expired handler key value running) v) (fun _ _ h => h)
  rintro k ds ⟨rfl, rfl⟩
  exact ⟨rfl, handler, running, rfl⟩

theorem disposeEvicted_idles (key : Key) (gone : Entry ν η) (w : World ν η μ) :
    (disposeEvicted invoke key gone).Ends w
      (Idles host invoke w fun k => EvictionStops key k [.evicted key gone]) := by
  unfold disposeEvicted
  refine ends_cache.mpr (idles_bind (fares_during rfl fun v => tellExpired_idles _ key _ _ v) ?_ ?_)
  · rintro k ⟨handler, running, rfl⟩
    exact ⟨rfl, .telling handler gone running⟩
  · intro final v
    apply fares_note
    split
    · apply Ends.fares (release_idles key gone _) (fun _ _ h => h)
      rintro k ds ⟨rfl, handler, rfl⟩
      exact ⟨rfl, .releasing handler gone⟩
    · exact fares_pure rfl

/-- What is offered is stored, and nobody decides about it. -/
theorem candidate?_idles (key : Key) (g : Nat) (w : World ν η μ) :
    (candidate? host key g).Ends w fun r v => Idles host invoke w (fun k => EvictionStops key k []) r v ∧
      ∀ e policy, r = .ok (some (e, policy)) → v.cache.insertion? key g = some e ∧ e.pending = false := by
  unfold candidate?
  apply ends_cache.mpr
  cases he : w.cache.insertion? key g with
  | none => exact ⟨⟨[], .still, rfl⟩, fun e policy h => nomatch h⟩
  | some e =>
    dsimp only
    split
    · rename_i policy hp hq
      apply (@expired_idles _ _ _ host invoke e w).bind
      · rintro b v ⟨hc, ds, hd, rfl⟩
        cases b with
        | false => exact ⟨⟨[], hd, rfl⟩, fun e policy h => nomatch h⟩
        | true =>
          refine ⟨⟨[], hd, rfl⟩, ?_⟩
          intro e' policy' h
          cases h
          rw [hc]
          exact ⟨he, hp⟩
      · rintro halt v ⟨-, hr⟩
        refine ⟨hr.failed ?_, fun e policy h => nomatch h⟩
        rintro k ds ⟨rfl, predicate, rfl⟩
        exact ⟨rfl, .asking predicate⟩
    · exact ⟨⟨[], .still, rfl⟩, fun e policy h => nomatch h⟩

/-- Either the insertion is taken out or nothing is done. -/
theorem commit_fares (key : Key) (g : Nat) (w : World ν η μ) :
    (commit host key g).Ends w (Fares host invoke w (fun gone ds => ds = gone.toList.map (.evicted key))
      fun k ds => ds = [] ∧ EvictionStops key k []) := by
  unfold commit
  apply ends_cache.mpr
  cases he : w.cache.insertion? key g with
  | none => exact fares_pure rfl
  | some e =>
    cases hq : e.policy with
    | none =>
      simp only [hq]
      exact fares_pure rfl
    | some policy =>
      simp only [hq]
      refine fares_expired (fun predicate => ⟨rfl, .asking predicate⟩) fun b v hc => ?_
      split
      · have hsuits : (Deed.evicted key e).Suits v := by
          show v.cache.find? key = some e
          rw [hc]
          exact (Cache.insertion?_eq_some.mp he).1
        refine ends_change.mpr (Ends.since (.did _ hsuits) ?_)
        exact fares_note (fares_pure rfl)
      · exact fares_pure rfl

/-- What a whole attempt has done. -/
def fateDeeds (key : Key) : Fate ν → List (Deed ν η) → Prop
  | .evicted, ds => ∃ gone, ds = [.evicted key gone]
  | .cancelled _, ds => ds = [.vetoed key]
  | .stale, ds => ds = []

theorem fateDeeds_judge {key : Key} {fate : Fate ν} {ds : List (Deed ν η)} (h : fateDeeds key fate ds) :
    ∀ d ∈ ds, d.isJudgement = true ∧ d.key? = some key := by
  cases fate with
  | evicted =>
    obtain ⟨gone, rfl⟩ := h
    simp [Deed.isJudgement, Deed.key?]
  | cancelled value =>
    cases h
    simp [Deed.isJudgement, Deed.key?]
  | stale =>
    cases h
    simp

theorem expire_fares (key : Key) (g : Nat) (w : World ν η μ) : (expire host invoke key g).Ends w
    (Fares host invoke w (fateDeeds key) (EvictionStops key)) := by
  unfold expire
  refine (@candidate?_idles _ _ _ host invoke key g w).bind ?_ ?_
  · rintro found v ⟨⟨ds, hd, rfl⟩, hfound⟩
    apply Ends.still hd
    match found, hfound with
    | none, _ => exact fares_pure rfl
    | some (e, policy), hfound =>
      obtain ⟨he, hp⟩ := hfound e policy rfl
      apply idles_bind (idles_deciding he hp fun u => askExpiring_idles g key _ policy u)
      · rintro k ⟨handler, rfl⟩
        exact .deciding handler e.value policy
      · intro answers u
        apply fares_note
        -- a veto is a deed by itself; without one the insertion is looked at again
        split
        · exact ends_change.mpr (Ends.since (.did (.vetoed key) trivial) (fares_pure rfl))
        · apply fares_bind (commit_fares key g _)
          · rintro k ds ⟨rfl, hk⟩
            exact hk
          · rintro gone ds x rfl
            cases gone with
            | none => exact fares_pure rfl
            | some gone =>
              apply fares_bind (disposeEvicted_idles key gone x)
              · rintro k ds ⟨rfl, hk⟩
                exact hk
              · rintro a ds y rfl
                exact fares_pure ⟨gone, rfl⟩
  · rintro halt v ⟨hr, -⟩
    apply hr.failed
    rintro k ds ⟨rfl, hk⟩
    exact hk

/-! ## Reads -/

theorem readEnds_fares (access : Access) (key : Key) (found : Option ν) (w : World ν η μ) :
    (readEnds access key found).Ends w (Fares host invoke w (fun r ds => r = found ∧
      ds = if access = .full then [.read key found.isSome] else []) K) := by
  unfold readEnds
  split
  · refine ends_change.mpr (Ends.since (.did (.read key found.isSome) trivial) ?_)
    exact fares_note (fares_pure ⟨rfl, rfl⟩)
  · exact fares_pure ⟨rfl, rfl⟩

/-- What a read has done that ended. -/
def ReadDeeds (access : Access) (key : Key) (found : Option ν) (ds : List (Deed ν η)) : Prop :=
  (∀ d ∈ ds, d.key? = some key) ∧ (access = .full → found = none → Missing key ds)

/-- A read ends, after an attempt to evict or none. -/
theorem readEnds_since (access : Access) {key : Key} (found : Option ν) (pre : List (Deed ν η))
    (w : World ν η μ) (hkey : ∀ d ∈ pre, d.key? = some key)
    (hpre : found = none → pre = [] ∨ ∃ gone, pre = [.evicted key gone]) :
    (readEnds access key found).Ends w (Fares host invoke w
      (fun r es => ReadDeeds access key r (pre ++ es)) fun k es => EvictionStops key k (pre ++ es)) := by
  refine Ends.fares (J := fun _ _ => False) (readEnds_fares access key found w) ?_ fun _ _ h => h.elim
  rintro r ds ⟨rfl, rfl⟩
  constructor
  · intro d hd
    rcases List.mem_append.mp hd with hd | hd
    · exact hkey d hd
    · split at hd
      · rw [List.mem_singleton.mp hd]
        rfl
      · cases hd
  · rintro rfl rfl
    rcases hpre rfl with rfl | ⟨gone, rfl⟩
    · exact .absent
    · exact .evicted gone

theorem lookup_fares (access : Access) (key : Key) (retries : Nat) (w : World ν η μ) :
    (lookup host invoke access key retries).Ends w
      (Fares host invoke w (ReadDeeds access key) (EvictionStops key)) := by
  induction retries generalizing w with
  | zero => trivial
  | succ retries ih =>
    unfold lookup
    apply ends_cache.mpr
    cases w.cache.find? key with
    | none => exact readEnds_since access none [] w (by simp) fun _ => Or.inl rfl
    | some e =>
      refine fares_expired (fun predicate => .asking predicate) fun b v hc => ?_
      cases b with
      | false =>
        rw [if_pos (show (!false) = true from rfl)]
        dsimp only
        split
        -- a touch and the hit are one deed, so `readEnds` is opened here
        · rename_i hfull
          subst hfull
          refine ends_now.mpr (ends_change.mpr ?_)
          unfold readEnds
          rw [if_pos rfl]
          have hdone : Unfolds host invoke none [.accessed v.now key] v
              (v.change (Deed.accessed v.now key).on) := .did _ rfl
          refine ends_change.mpr (Ends.since hdone (fares_note (fares_pure ⟨?_, ?_⟩)))
          · simp [Deed.key?]
          · exact fun _ h => by cases h
        · exact readEnds_since access (some e.value) [] v (by simp) fun h => by cases h
      | true =>
        rw [if_neg (show ¬(!true) = true by decide)]
        split
        · exact readEnds_since access (some e.value) [] v (by simp) fun h => by cases h
        · apply fares_bind (expire_fares key e.generation v) (fun _ _ hk => hk)
          rintro fate ds u hfate
          cases fate with
          | evicted =>
            obtain ⟨gone, rfl⟩ := hfate
            exact readEnds_since access none _ u (by simp [Deed.key?]) fun _ => Or.inr ⟨gone, rfl⟩
          | cancelled value =>
            cases hfate
            exact readEnds_since access (some value) _ u (by simp [Deed.key?]) fun h => by cases h
          | stale =>
            cases hfate
            exact fares_note (ih _)

/-! ## Insertions and fetches -/

theorem policyFor_idles (key : Key) (given : Option (Policy η)) (w : World ν η μ) :
    (policyFor invoke key given).Ends w (Fares host invoke w
      (fun policy ds => ds = [] ∧ (given.isSome = true → policy = given))
      fun k ds => ds = [] ∧ given = none ∧ ∃ handler, k = .callback (.defaultPolicy handler key)) := by
  cases given with
  | some policy => exact fares_pure ⟨rfl, fun _ => rfl⟩
  | none =>
    apply ends_cache.mpr
    cases w.cache.settings.defaultPolicy with
    | none => exact fares_pure ⟨rfl, fun h => nomatch h⟩
    | some handler =>
      apply Ends.fares (invoke_idles (.defaultPolicy handler key) w)
      · rintro policy ds rfl
        exact ⟨rfl, fun h => nomatch h⟩
      · rintro k ds ⟨rfl, rfl⟩
        exact ⟨rfl, rfl, handler, rfl⟩

theorem occupied_idles (key : Key) (w : World ν η μ) : (occupied host key).Ends w
    (Idles host invoke w (·.IsPredicate)) := by
  unfold occupied
  apply ends_cache.mpr
  cases w.cache.find? key with
  | none => exact fares_pure rfl
  | some e =>
    dsimp only
    split
    · exact fares_pure rfl
    · exact fares_expired (fun predicate => ⟨rfl, predicate, rfl⟩) fun b v _ => fares_pure rfl

theorem store_fares {options : Options η} (key : Key) (value : ν) (policy : Option (Policy η))
    (hp : options.policy.isSome = true → policy = options.policy) (w : World ν η μ) :
    (store invoke key value policy).Ends w (Fares host invoke w
      (fun _ ds => ∃ now old, ds = [.stored now key value policy old])
      (InsertionStops key value options)) := by
  have placed : Unfolds host invoke none [.stored w.now key value policy (w.cache.find? key)] w
      (w.placed key value policy) := by
    have hd : Unfolds host invoke none _ w _ :=
      .did (.stored w.now key value policy (w.cache.find? key)) ⟨rfl, rfl⟩
    have came := hd.trans (.note (.inserted w.cache.nextGeneration key value))
    unfold World.placed
    cases hf : w.cache.find? key with
    | none =>
      rw [hf] at came
      exact came
    | some old =>
      rw [hf] at came
      exact came.trans (.note _)
  unfold store
  refine ends_place (Ends.since placed ?_)
  have tended : ∀ {P K} (rest : Act ν η μ Unit),
      (∀ v : World ν η μ, rest.Ends v (Fares host invoke v P K)) → ∀ v : World ν η μ,
      (do if policy.isSome then Act.change .ensureTimer
          rest).Ends v (Fares host invoke v P K) := by
    intro P K rest hrest v
    cases policy with
    | none => exact hrest v
    | some p =>
      refine fares_aside ?_ (hrest _)
      unfold Cache.ensureTimer
      split <;> exact ⟨rfl, rfl, rfl, rfl, rfl⟩
  cases w.cache.find? key with
  | none => exact tended _ (fun v => fares_pure ⟨_, _, rfl⟩) _
  | some old =>
    refine tended _ (fun v => ?_) _
    apply Ends.fares (releaseIfSet_idles key old v)
    · rintro a ds rfl
      exact ⟨_, _, rfl⟩
    · rintro k ds ⟨rfl, handler, rfl⟩
      exact .releasing handler w.now policy old hp

theorem insert_fares (key : Key) (value : ν) (options : Options η) (w : World ν η μ) :
    (insert host invoke key value options).Ends w (Fares host invoke w
      (fun _ ds => ds = [] ∨ ∃ now policy old, ds = [.stored now key value policy old])
      (InsertionStops key value options)) := by
  unfold insert
  apply fares_bind (policyFor_idles key options.policy w)
  · rintro k ds ⟨rfl, hnone, handler, rfl⟩
    exact .lacking handler hnone
  · rintro policy ds v ⟨rfl, hp⟩
    have stored : ∀ u : World ν η μ, (store invoke key value policy).Ends u (Fares host invoke u
        (fun _ ds => ds = [] ∨ ∃ now policy old, ds = [.stored now key value policy old])
        (InsertionStops key value options)) := by
      intro u
      refine Ends.fares (store_fares key value policy hp u) ?_ fun _ _ hk => hk
      rintro a ds ⟨now, old, rfl⟩
      exact Or.inr ⟨now, policy, old, rfl⟩
    split
    · exact stored v
    · rename_i ho
      apply idles_bind (occupied_idles key v)
      · rintro k ⟨predicate, rfl⟩
        exact .asking predicate (Bool.not_eq_true _ ▸ ho)
      · intro taken u
        split
        · exact fares_pure (Or.inl rfl)
        · exact stored u

/-- All the deeds are about this key. -/
def About (key : Key) (ds : List (Deed ν η)) : Prop := ∀ d ∈ ds, d.key? = some key

theorem About.append {key : Key} {ds es : List (Deed ν η)} (h : About key ds) (k : About key es) :
    About key (ds ++ es) := fun d hd => (List.mem_append.mp hd).elim (h d) (k d)

theorem make_fares {options : Options η} {before : List (Deed ν η)} (key : Key) (factory : η)
    (hb : About key before) (hl : options.Lacks key before) (w : World ν η μ) :
    (make host invoke key factory options).Ends w (Fares host invoke w
      (fun _ ds => About key (before ++ ds))
      fun k ds => FetchStops key factory options k (before ++ ds)) := by
  unfold make
  apply idles_bind (invoke_idles (.factory factory key) w)
  · rintro k rfl
    rw [List.append_nil]
    exact .making hl
  · intro made v
    cases made with
    | error message =>
      apply fares_pure
      rw [List.append_nil]
      exact hb
    | ok value =>
      apply fares_bind (insert_fares key value { options with overwrite := true } v)
      · intro k ds hk
        exact .storing value hl hk
      · intro a ds u hds
        apply fares_pure
        rw [List.append_nil]
        apply hb.append
        rcases hds with rfl | ⟨now, policy, old, rfl⟩
        · simp [About]
        · simp [About, Deed.key?]

theorem fetchInside_fares (key : Key) (factory : η) (options : Options η) (retries : Nat)
    (w : World ν η μ) : (fetchInside host invoke key factory options retries).Ends w
      (Fares host invoke w (fun _ ds => About key ds) (FetchStops key factory options)) := by
  unfold fetchInside
  split
  · rename_i ho
    have hlacks : options.Lacks key ([] : List (Deed ν η)) := by
      unfold Options.Lacks
      rw [if_pos ho]
    exact make_fares key factory (by simp [About]) hlacks w
  · rename_i ho
    apply fares_bind (lookup_fares .full key retries w)
    · intro k ds hk
      exact .reading (Bool.not_eq_true _ ▸ ho) hk
    · rintro found ds v ⟨hkey, hmissing⟩
      cases found with
      | some value =>
        apply fares_pure
        rw [List.append_nil]
        exact hkey
      | none =>
        refine make_fares key factory hkey ?_ v
        unfold Options.Lacks
        rw [if_neg ho]
        exact hmissing rfl rfl

theorem fetch_fares (key : Key) (factory : η) (options : Options η) (retries : Nat)
    (w : World ν η μ) : (fetch host invoke key factory options retries).Ends w
      (Fares host invoke w (fun _ ds => About key ds) (FetchStops key factory options)) := by
  unfold fetch
  apply ends_cache.mpr
  cases ha : w.cache.admission.acquire? key with
  | none => exact fares_pure (by simp [About])
  | some entered =>
    obtain ⟨acquired, slot⟩ := entered
    show (if host.accepts key = true then _ else _ : Act ν η μ (Fetched ν)).Ends w _
    split
    · exact fares_holding ha fun v => fetchInside_fares key factory options retries v
    · exact fares_pure (by simp [About])

theorem race_fares (key : Key) (factory : η) (options : Options η) (retries callers : Nat) :
    ∀ w : World ν η μ, (race host invoke key factory options retries callers).Ends w
      (Fares host invoke w (fun _ ds => About key ds) fun k ds => ∃ done rest, ds = done ++ rest ∧
        About key done ∧ FetchStops key factory options k rest) := by
  induction callers with
  | zero => exact fun w => fares_pure (by simp [About])
  | succ callers ih =>
    intro w
    unfold race
    apply fares_bind (fetch_fares key factory options retries w)
    · intro k ds hk
      exact ⟨[], ds, rfl, by simp [About], hk⟩
    · intro first ds v hds
      apply fares_bind (ih v)
      · rintro k es ⟨done, rest, rfl, hdone, hk⟩
        exact ⟨ds ++ done, rest, by simp, hds.append hdone, hk⟩
      · intro others es u hes
        apply fares_pure
        rw [List.append_nil]
        exact hds.append hes

/-! ## Removals -/

theorem remove_fares (key : Key) (w : World ν η μ) : (remove invoke key).Ends w
    (Fares host invoke w (fun _ _ => True) fun k ds => ∃ handler gone,
      k = .callback (.release handler key gone.value) ∧ ds = [.removed key gone]) := by
  unfold remove
  apply ends_cache.mpr
  cases hf : w.cache.find? key with
  | none => exact fares_pure trivial
  | some e =>
    have hsuits : (Deed.removed key e).Suits w := hf
    refine ends_change.mpr (Ends.since (.did _ hsuits) (fares_note ?_))
    refine idles_bind (releaseIfSet_idles key e _) ?_ fun _ _ => fares_pure trivial
    rintro k ⟨handler, rfl⟩
    exact ⟨handler, e, rfl, rfl⟩

theorem emptied_unfolds (w : World ν η μ) :
    Unfolds host invoke none [.cleared w.cache.entries.rows] w w.emptied := by
  -- all rows leave in one deed; the journal has a line for each
  have noted : ∀ (rows : List (Key × Entry ν η)) (ds : List (Deed ν η)) (v : World ν η μ),
      Unfolds host invoke none ds w v → Unfolds host invoke none ds w (v.noteCleared rows) := by
    intro rows ds
    induction rows with
    | nil => exact fun v h => h
    | cons r rows ih =>
      intro v h
      have hnote := h.trans (.note (.left r.2.generation r.1 r.2.value .cleared))
      rw [List.append_nil] at hnote
      exact ih _ hnote
  exact noted _ _ _ (.did (.cleared w.cache.entries.rows) rfl)

theorem clear_fares (w : World ν η μ) : (clear invoke).Ends w
    (Fares host invoke w (fun _ ds => ∃ gone, ds = [.cleared gone]) ClearingStops) := by
  unfold clear
  refine ends_takeAll (Ends.since (emptied_unfolds w) ?_)
  have hloop : ∀ u, (w.cache.entries.rows.forM fun r => releaseIfSet invoke r.1 r.2).Ends u
      (Idles host invoke u fun k => ∃ handler key e,
        (key, e) ∈ w.cache.entries.rows ∧ k = .callback (.release handler key e.value)) := by
    apply idles_forM
    intro r hr v
    apply Ends.fares (releaseIfSet_idles r.1 r.2 v) fun _ _ h => h
    rintro k ds ⟨rfl, handler, rfl⟩
    exact ⟨rfl, handler, r.1, r.2, hr, rfl⟩
  apply Ends.fares (hloop w.emptied)
  · rintro a ds rfl
    exact ⟨_, rfl⟩
  · rintro k ds ⟨rfl, handler, key, e, hm, rfl⟩
    exact .releasing handler _ key e hm

theorem closeUnused_fares (w : World ν η μ) : (closeUnused invoke).Ends w
    (Fares host invoke w (fun _ ds => ds = [] ∨ ∃ gone, ds = [.cleared gone]) ClearingStops) := by
  unfold closeUnused
  apply ends_get.mpr
  split
  · apply fares_aside ⟨rfl, rfl, rfl, rfl, rfl⟩
    exact Ends.fares (clear_fares _) (fun _ _ h => Or.inr h) fun _ _ h => h
  · exact fares_pure (Or.inl rfl)

/-! ## Sweeps -/

theorem attempts_fares (cs : List (Key × Nat)) : ∀ (n : Nat) (w : World ν η μ),
    (cs.map Prod.fst).Nodup →
    (cs.foldlM (fun n (c : Key × Nat) => do
      match ← expire host invoke c.1 c.2 with
      | .evicted => return n + 1
      | _ => return n) n).Ends w (Fares host invoke w (fun _ _ => True) fun k ds =>
        ∃ key done rest, ds = done ++ rest ∧ key ∈ cs.map Prod.fst ∧ EvictionStops key k rest ∧
          ∀ d ∈ done, d.isJudgement = true ∧ d.key? ≠ some key) := by
  induction cs with
  | nil => exact fun n w _ => fares_pure trivial
  | cons c cs ih =>
    intro n w hnodup
    rw [List.map_cons, List.nodup_cons] at hnodup
    rw [List.foldlM_cons]
    have hstep : ∀ fate : Fate ν, ∀ v : World ν η μ, (match fate with
        | .evicted => Pure.pure (n + 1)
        | _ => Pure.pure n : Act ν η μ Nat).Ends v (Idles host invoke v fun _ => False) := by
      intro fate v
      cases fate <;> exact fares_pure rfl
    -- the keys are distinct, so what the attempt on the first has done is about none of the others
    refine fares_bind (P := fun _ ds => ∀ d ∈ ds, d.isJudgement = true ∧ d.key? = some c.1)
      (fares_bind (expire_fares c.1 c.2 w) (fun _ _ hk => hk) ?_) ?_ ?_
    · intro fate ds v hfate
      refine Ends.fares (hstep fate v) ?_ fun _ _ h => h.2.elim
      rintro m es rfl
      rw [List.append_nil]
      exact fateDeeds_judge hfate
    · intro k ds hk
      exact ⟨c.1, [], ds, rfl, List.mem_cons_self .., hk, by simp⟩
    · intro m ds v hds
      apply Ends.fares (ih m v hnodup.2) (fun _ _ _ => trivial)
      rintro k es ⟨key, done, rest, rfl, hkey, hk, hdone⟩
      refine ⟨key, ds ++ done, rest, by simp, List.mem_cons_of_mem _ hkey, hk, ?_⟩
      intro d hd
      rcases List.mem_append.mp hd with hd | hd
      · obtain ⟨hj, hc⟩ := hds d hd
        refine ⟨hj, ?_⟩
        rw [hc]
        rintro ⟨⟩
        exact hnodup.1 hkey
      · exact hdone d hd

theorem sweep_fares (w : World ν η μ) : (sweep host invoke).Ends w
    (Fares host invoke w (fun _ _ => True) SweepStops) := by
  have listed : (candidates host).Ends w (Fares host invoke w
      (fun cs ds => ds = [] ∧ (cs.map Prod.fst).Nodup) fun k ds => ds = [] ∧ k.IsPredicate) := by
    unfold candidates
    refine ends_cache.mpr (fares_bind (idles_filterM (C := (·.IsPredicate)) ?_ _ w) (fun _ _ h => h) ?_)
    · intro r v
      split
      · exact fares_pure rfl
      · exact (expired_idles r.2 v).mono fun _ _ h => h.2
    · rintro rows ds v ⟨rfl, hsub⟩
      refine fares_pure ⟨rfl, ?_⟩
      rw [List.map_map]
      exact w.cache.entries.distinct.sublist (hsub.map Prod.fst)
  unfold sweep
  apply fares_bind listed
  · rintro k ds ⟨rfl, predicate, rfl⟩
    exact .listing predicate
  · rintro cs ds v ⟨rfl, hnodup⟩
    apply Ends.fares (attempts_fares cs 0 v hnodup) (fun _ _ h => h)
    rintro k ds ⟨key, done, rest, rfl, -, hk, hdone⟩
    exact .evicting key done hdone hk

theorem liveKeys_idles (w : World ν η μ) : (liveKeys host).Ends w
    (Idles host invoke w (·.IsPredicate)) := by
  unfold liveKeys
  refine ends_cache.mpr (fares_bind (idles_filterM (C := (·.IsPredicate)) ?_ _ w) (fun _ _ h => h) ?_)
  · intro r v
    split
    · exact fares_pure rfl
    · exact fares_expired (fun predicate => ⟨rfl, predicate, rfl⟩) fun b v _ => fares_pure rfl
  · rintro rows ds v ⟨rfl, -⟩
    exact fares_pure rfl

theorem tick_fares (w : World ν η μ) : (tick host invoke).Ends w
    (Fares host invoke w (fun _ _ => True) SweepStops) := by
  unfold tick
  apply fares_bind (sweep_fares w) (fun _ _ h => h)
  intro n ds v _
  apply ends_cache.mpr
  split
  · exact fares_aside ⟨rfl, rfl, rfl, rfl, rfl⟩ (fares_pure trivial)
  · exact fares_pure trivial

/-! ## Operations -/

theorem keyed_fares {op : Operation ν η} {key : Key} {work : Act ν η μ (Answer ν)} {w : World ν η μ}
    (h : work.Ends w (Fares host invoke w (fun _ _ => True) op.Stops)) :
    (keyed host key work).Ends w (Fares host invoke w (fun _ _ => True) op.Stops) := by
  unfold keyed
  split
  · exact h
  · exact fares_pure trivial

theorem carryOut_fares (retries : Nat) (op : Operation ν η) (w : World ν η μ) :
    (carryOut host invoke retries op).Ends w (Fares host invoke w (fun _ _ => True) op.Stops) := by
  cases op with
  | insert key value options =>
    refine keyed_fares (fares_bind (insert_fares key value options w) (fun _ _ h => .insert h) ?_)
    exact fun _ _ _ _ => fares_pure trivial
  | get key =>
    refine keyed_fares (fares_bind (lookup_fares .full key retries w) (fun _ _ h => .get h) ?_)
    exact fun _ _ _ _ => fares_pure trivial
  | contains key =>
    refine keyed_fares (fares_bind (lookup_fares .peek key retries w) (fun _ _ h => .contains h) ?_)
    exact fun _ _ _ _ => fares_pure trivial
  | fetch key factory options =>
    apply fares_bind (fetch_fares key factory options retries w) (fun _ _ h => .fetch h)
    intro fetched _ _ _
    cases fetched <;> exact fares_pure trivial
  | race key factory options callers =>
    apply ends_cache.mpr
    split
    · apply fares_bind (race_fares key factory options retries callers w)
      · rintro k ds ⟨done, rest, rfl, hdone, hk⟩
        exact .race done hdone hk
      · exact fun _ _ _ _ => fares_pure trivial
    · exact fares_pure trivial
  | remove key =>
    refine keyed_fares (fares_bind (remove_fares key w) ?_ fun _ _ _ _ => fares_pure trivial)
    rintro k ds ⟨handler, gone, rfl, rfl⟩
    exact .remove handler gone
  | clear =>
    apply fares_bind (clear_fares w) (fun _ _ h => .clear h)
    exact fun _ _ _ _ => fares_pure trivial
  | sweep =>
    apply fares_bind (sweep_fares w) (fun _ _ h => .sweep h)
    exact fun _ _ _ _ => fares_pure trivial
  | length => exact ends_cache.mpr (fares_pure trivial)
  | keys =>
    refine idles_bind (liveKeys_idles w) ?_ fun _ _ => fares_pure trivial
    rintro k ⟨predicate, rfl⟩
    exact .keys predicate
  | statistics => exact ends_cache.mpr (fares_pure trivial)
  | timerRunning => exact ends_cache.mpr (fares_pure trivial)
  | onExpiring handler => exact fares_aside ⟨rfl, rfl, rfl, rfl, rfl⟩ (fares_pure trivial)
  | onExpired handler => exact fares_aside ⟨rfl, rfl, rfl, rfl, rfl⟩ (fares_pure trivial)
  | drop => exact fares_aside ⟨rfl, rfl, rfl, rfl, rfl⟩ (fares_pure trivial)

/-- The closing of the cache after an operation that was carried out, and the end of the operation. -/
theorem closing_concludes {op : Operation ν η} {r : Except Halt (Answer ν)} {u : World ν η μ}
    (h : Fares host invoke (w.push (.operation op)) (fun _ _ => True) op.Stops r u) :
    Closes invoke op (op.Concludes host invoke w) r u.pop := by
  unfold Closes
  cases hcut : cutShort r with
  | true =>
    obtain ⟨rfl, -⟩ := caught_of_cutShort hcut
    trivial
  | false =>
    rw [if_neg Bool.false_ne_true]
    apply (@closeUnused_fares _ _ _ host invoke u.pop).mono
    intro t v ht
    match t, ht with
    | .error .exhausted, _ => trivial
    | .ok _, ⟨closing, hclosing, hclose⟩ =>
      match r, h with
      | .ok b, ⟨ds, hd, _⟩ => exact ⟨ds, closing, u, v, hd, hclosing, hclose, rfl⟩
      | .error (.panic _), ⟨k, ds, hd, hk⟩ => exact .working hd hk hclosing hclose
    | .error (.panic _), ⟨j, closing, hclosing, hclose⟩ =>
      match r, h with
      | .ok b, ⟨ds, hd, _⟩ => exact .closing hd (fun k hk => nomatch hk) hclosing hclose
      | .error (.panic _), ⟨k, ds, hd, hk⟩ =>
        refine .closing hd ?_ hclosing hclose
        rintro i ⟨⟩
        exact hk

theorem operate_concludes (retries : Nat) (op : Operation ν η) (w : World ν η μ) :
    (operate host invoke retries op).Ends w (op.Concludes host invoke w) :=
  operate_closes ((carryOut_fares retries op _).mono fun _ _ hr => closing_concludes hr)

theorem perform_concludes (host : Host ν η μ) (depth : Nat) (op : Operation ν η) (w : World ν η μ) :
    (perform host (depth + 1) op).Ends w fun r v =>
      if w.cache.handle = .held then op.Concludes host (call host depth) w r v
      else r = .ok (afterDrop op) ∧ v = w := by
  unfold perform
  apply ends_cache.mpr
  by_cases hw : w.cache.handle = .held
  · rw [if_pos hw]
    simp only [hw, if_true]
    exact operate_concludes depth op w
  · rw [if_neg hw]
    simp only [hw, if_false]
    exact ends_pure.mpr ⟨rfl, rfl⟩

end Act

end

end ExpiringCache
