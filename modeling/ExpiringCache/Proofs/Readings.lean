import ExpiringCache.Proofs.Conservation
import ExpiringCache.Proofs.Excerpts
import ExpiringCache.Proofs.Inheritance
import Mathlib.Data.List.Forall2

/-!
# What reads are counted

A read that ends is counted as a hit or as a miss at once, and writes a line that says which. So the
counters are read off the journal; what is left to say is which lines an operation writes. Its own
readings are told here from those of the operations that its callbacks perform: a read that ends writes
one line, no matter how often it started over, a read that is unwound writes none, and nothing else
reads.
-/

namespace ExpiringCache

variable {ν η μ α β : Type}

inductive Reading where
  | read (key : Key) (found : Bool)
  -- nothing was found, and a factory is called
  | made (key : Key)
deriving DecidableEq

def Record.reading? : Record ν η → Option Reading
  | .read key found => some (.read key found)
  | .entered (.factory _ key) => some (.made key)
  | _ => none

/-- Which readings are looked at, by the work they are made in. -/
abbrev View (ν η : Type) := Reading → List (Activity ν η) → Bool

namespace Line

def reading? (see : View ν η) (l : Line ν η) : Option Reading := l.record.reading?.filter (see · l.calls)

/-- A read ended, with this result. -/
def reads (found : Bool) (l : Line ν η) : Bool :=
  match l.record with
  | .read _ b => b == found
  | _ => false

end Line

/-! ## Work that reads nothing itself -/

namespace Act

/-- Nothing is read by the work in such frames, as far as one looks. -/
def Blind (see : View ν η) (K : List (Activity ν η) → Prop) (x : Act ν η μ α) : Prop :=
  ∀ w, K w.calls → x.Ends w (Mute (·.reading? see) w)

/-- Calls of the host show nothing but that they are entered. -/
structure Shows (see : View ν η) (K : List (Activity ν η) → Prop) (invoke : Invoke ν η μ) : Prop where
  inside : ∀ a calls, K calls → K (a :: calls)
  call : ∀ (c : Callback ν η) (w : World ν η μ), K w.calls → (invoke c).Ends w
    (Writes (·.reading? see) w fun _ rs => rs = ((w.line (.entered c)).reading? see).toList)

variable {see : View ν η} {K : List (Activity ν η) → Prop} {invoke : Invoke ν η μ}

theorem Blind.inherited (hK : ∀ a calls, K calls → K (a :: calls)) (host : Host ν η μ) :
    Inherited host (Blind see K) where
  pure _ _ _ := writes_pure rfl
  throw _ _ _ := writes_throw rfl
  bind hx hf w hw := mute_bind (hx w hw) (fun a v hc => hf a v (hc ▸ hw)) fun _ => rfl
  get _ hg w hw := hg w w hw
  consult predicate t w _ :=
    ends_consult (fun _ _ => ⟨rfl, [_], rfl, rfl⟩) fun _ _ => ⟨rfl, [_], rfl, rfl⟩
  change _ _ _ := ⟨rfl, [], rfl, rfl⟩
  wait _ _ _ := ⟨rfl, [], rfl, rfl⟩
  remember _ _ _ := ⟨rfl, [], rfl, rfl⟩
  note r hr w _ := by
    refine ⟨rfl, [w.line r], rfl, ?_⟩
    cases r <;> first | rfl | cases hr
  attempt hx w hw := writes_attempt (hx w hw)
  during a _ hx w hw := writes_during (hx _ (hK a _ hw))
  deciding key g hx w hw :=
    writes_bracket rfl rfl (fun _ => ⟨rfl, rfl⟩) (hx _ (hK (.deciding key g) _ hw))

/-- A call for anything but a value. -/
theorem Shows.blind (hs : Shows see K invoke) (c : Callback ν η) (hc : c.isFactory = false) :
    (invoke c).Blind see K := by
  intro w hw
  apply Ends.writes (hs.call c w hw)
  rintro r _ rfl
  cases c <;> first | rfl | cases hc

end Act

/-! ## The readings of an operation -/

/-- What a read shows, by how it ends. -/
def readingsOf (key : Key) : Except Halt (Option ν) → List Reading
  | .ok found => [.read key found.isSome]
  | .error _ => []

/-- Before a fetch has a value made, it has found none, or did not look. -/
def Options.lacking (options : Options η) (key : Key) : List Reading :=
  if options.overwrite then [] else [.read key false]

/-- The readings of a fetch. -/
inductive FetchReads (key : Key) (options : Options η) : Except Halt (Fetched ν) → List Reading → Prop
  | found (value : ν) (ho : options.overwrite = false) :
      FetchReads key options (.ok (.value value)) [.read key true]
  | made (value : ν) : FetchReads key options (.ok (.value value)) (options.lacking key ++ [.made key])
  | failed (message : String) : FetchReads key options (.ok (.refused (.factoryFailed message)))
      (options.lacking key ++ [.made key])
  | refused (cause : Refusal) (h : ∀ message, cause ≠ .factoryFailed message) :
      FetchReads key options (.ok (.refused cause)) []
  -- by a panic inside the read
  | unread (halt : Halt) (ho : options.overwrite = false) : FetchReads key options (.error halt) []
  -- by a panic after it
  | unmade (halt : Halt) : FetchReads key options (.error halt) (options.lacking key ++ [.made key])

namespace Operation

/-- The readings of an operation, oldest first and without those of other operations, by how it ends. -/
inductive Reads : Operation ν η → Except Halt (Answer ν) → List Reading → Prop
  | found (key : Key) (value : Option ν) :
      Reads (.get key) (.ok (.found value)) [.read key value.isSome]
  | refused (key : Key) (cause : Refusal) : Reads (.get key) (.ok (.refused cause)) []
  | unread (key : Key) (halt : Halt) : Reads (.get key) (.error halt) []
  | fetched {key : Key} {factory : η} {options : Options η} {value : ν} {rs : List Reading}
      (h : FetchReads key options (.ok (.value value)) rs) :
      Reads (.fetch key factory options) (.ok (.fetched value)) rs
  | unfetched {key : Key} {factory : η} {options : Options η} {cause : Refusal} {rs : List Reading}
      (h : FetchReads (ν := ν) key options (.ok (.refused cause)) rs) :
      Reads (.fetch key factory options) (.ok (.refused cause)) rs
  | fetching {key : Key} {factory : η} {options : Options η} {halt : Halt} {rs : List Reading}
      (h : FetchReads (ν := ν) key options (.error halt) rs) :
      Reads (.fetch key factory options) (.error halt) rs
  -- one caller after another
  | raced {key : Key} {factory : η} {options : Options η} {results : List (Fetched ν)}
      {rss : List (List Reading)}
      (h : List.Forall₂ (fun fetched rs => FetchReads key options (.ok fetched) rs) results rss) :
      Reads (.race key factory options results.length) (.ok (.raced results)) rss.flatten
  | unraced {key : Key} {factory : η} {options : Options η} {callers : Nat} (cause : Refusal) :
      Reads (.race key factory options callers) (.ok (.refused cause)) []
  | racing {key : Key} {factory : η} {options : Options η} {callers : Nat} {halt : Halt}
      {results : List (Fetched ν)} {rss : List (List Reading)} {rs : List Reading}
      (hlen : results.length < callers)
      (h : List.Forall₂ (fun fetched rs => FetchReads key options (.ok fetched) rs) results rss)
      (hlast : FetchReads (ν := ν) key options (.error halt) rs) :
      Reads (.race key factory options callers) (.error halt) (rss.flatten ++ rs)
  | other {op : Operation ν η} (h : op.isRead = false) (r : Except Halt (Answer ν)) : Reads op r []

/-- The frame in which an operation reads, but for the number of its slot. -/
def frame : Operation ν η → List (Activity ν η) → List (Activity ν η)
  | fetch key _ _, calls => .fetching key 0 :: calls
  | race key _ _ _, calls => .fetching key 0 :: calls
  | _, calls => calls

end Operation

namespace Act

variable {see : View ν η} {K : List (Activity ν η) → Prop} {host : Host ν η μ} {invoke : Invoke ν η μ}

theorem readEnds_shows (key : Key) (found : Option ν) (w : World ν η μ) :
    (readEnds .full key found).Ends w (Writes (·.reading? see) w fun r rs => r = .ok found ∧
      rs = [Reading.read key found.isSome].filter (see · w.calls)) := by
  unfold readEnds
  rw [if_pos rfl]
  refine writes_change (writes_note (writes_pure ⟨rfl, ?_⟩))
  simp only [Line.reading?, World.line, Record.reading?, World.calls_change, List.append_nil]
  cases hsee : see (.read key found.isSome) w.calls <;> simp [hsee]

section

variable (hs : Shows see K invoke)

include hs

/-- A read that ends shows itself, and nothing else that happens in it. -/
theorem lookup_shows (key : Key) (retries : Nat) : ∀ w : World ν η μ, K w.calls →
    (lookup host invoke .full key retries).Ends w (Writes (·.reading? see) w fun r rs =>
      rs = (readingsOf key r).filter (see · w.calls)) := by
  induction retries with
  | zero => exact fun w _ => writes_throw rfl
  | succ retries ih =>
    intro w hw
    have ended : ∀ (found : Option ν) (v : World ν η μ), v.calls = w.calls →
        (readEnds .full key found).Ends v (Writes (·.reading? see) v fun r rs =>
          rs = (readingsOf key r).filter (see · w.calls)) := by
      intro found v hc
      apply (readEnds_shows key found v).writes
      rintro r rs ⟨rfl, rfl⟩
      rw [hc]
      rfl
    unfold lookup
    apply ends_cache.mpr
    cases w.cache.find? key with
    | none => exact ended none w rfl
    | some e =>
      refine mute_bind ((Blind.inherited hs.inside host).woven.expired e w hw) ?_ fun _ => rfl
      intro found v hc
      cases found with
      | false => exact ends_now.mpr (writes_change (ended (some e.value) _ hc))
      | true =>
        rw [if_neg (by decide)]
        split
        · exact ended _ v hc
        · refine mute_bind
            ((Blind.inherited hs.inside host).woven.expire hs.blind key e.generation v (hc ▸ hw)) ?_
            fun _ => rfl
          intro fate u hu
          cases fate with
          | evicted => exact ended none u (hu.trans hc)
          | cancelled value => exact ended (some value) u (hu.trans hc)
          | stale =>
            have hline : (u.line (.retried key)).reading? see = none := rfl
            apply writes_note
            rw [hline]
            have hagain := ih (u.note (.retried key)) ((hu.trans hc).symm ▸ hw)
            rw [World.calls_note, hu.trans hc] at hagain
            exact hagain

theorem make_shows (key : Key) (factory : η) (options : Options η) (w : World ν η μ)
    (hw : K w.calls) : (make host invoke key factory options).Ends w
      (Writes (·.reading? see) w fun r rs => rs = [Reading.made key].filter (see · w.calls) ∧
        ∀ fetched, r = .ok fetched → (∃ value, fetched = .value value) ∨
          ∃ message, fetched = .refused (.factoryFailed message)) := by
  have hcall : (w.line (.entered (.factory factory key))).reading? see =
      (some (.made key)).filter (see · w.calls) := rfl
  have hlist : ((some (Reading.made key)).filter (see · w.calls)).toList =
      [Reading.made key].filter (see · w.calls) := by
    cases hsee : see (.made key) w.calls <;> simp [hsee]
  refine writes_bind (hs.call _ w hw) ?_ ?_
  · rintro made rs v hc rfl
    rw [hcall, hlist]
    cases made with
    | error message =>
      refine writes_pure ⟨List.append_nil _, ?_⟩
      rintro _ ⟨⟩
      exact Or.inr ⟨message, rfl⟩
    | ok value =>
      have hblind : Inherited host (Blind see K) := Blind.inherited hs.inside host
      refine mute_bind (hblind.woven.insert hs.blind hblind.ensureTimer key value _ v (hc ▸ hw)) ?_ ?_
      · intro _ u _
        refine writes_pure ⟨List.append_nil _, ?_⟩
        rintro _ ⟨⟩
        exact Or.inl ⟨value, rfl⟩
      · exact fun halt => ⟨List.append_nil _, fun _ h => nomatch h⟩
  · rintro halt rs rfl
    exact ⟨by rw [hcall, hlist], fun _ h => nomatch h⟩

theorem fetchInside_shows (key : Key) (factory : η) (options : Options η) (retries : Nat)
    (w : World ν η μ) (hw : K w.calls) : (fetchInside host invoke key factory options retries).Ends w
      (Writes (·.reading? see) w fun r rs =>
        ∃ ts, FetchReads key options r ts ∧ rs = ts.filter (see · w.calls)) := by
  have making : ∀ v : World ν η μ, v.calls = w.calls → (make host invoke key factory options).Ends v
      (Writes (·.reading? see) v fun r rs => ∃ ts, FetchReads key options r ts ∧
        (options.lacking key).filter (see · w.calls) ++ rs = ts.filter (see · w.calls)) := by
    intro v hc
    apply (make_shows hs key factory options v (hc ▸ hw)).writes
    rintro r rs ⟨rfl, hr⟩
    refine ⟨options.lacking key ++ [.made key], ?_, ?_⟩
    · match r with
      | .error halt => exact .unmade halt
      | .ok fetched =>
        rcases hr fetched rfl with ⟨value, rfl⟩ | ⟨message, rfl⟩
        · exact .made value
        · exact .failed message
    · rw [List.filter_append, hc]
  unfold fetchInside
  cases ho : options.overwrite with
  | true =>
    have hmaking := making w rfl
    simp only [Options.lacking, ho, if_true, List.filter_nil, List.nil_append] at hmaking
    exact hmaking
  | false =>
    simp only [Bool.false_eq_true, if_false]
    refine writes_bind (lookup_shows hs key retries w hw) ?_ ?_
    · rintro found rs v hc rfl
      cases found with
      | some value => exact writes_pure ⟨_, .found value ho, List.append_nil _⟩
      | none =>
        have hmaking := making v hc
        simp only [Options.lacking, ho, Bool.false_eq_true, if_false] at hmaking
        exact hmaking
    · rintro halt rs rfl
      exact ⟨[], .unread halt ho, rfl⟩

/-- What is looked at does not depend on the numbers of slots. -/
theorem fetch_shows (hslot : ∀ reading key slot calls, see reading (.fetching key slot :: calls) =
      see reading (.fetching key 0 :: calls))
    (key : Key) (factory : η) (options : Options η) (retries : Nat) (w : World ν η μ)
    (hw : K w.calls) : (fetch host invoke key factory options retries).Ends w
      (Writes (·.reading? see) w fun r rs => ∃ ts, FetchReads key options r ts ∧
        rs = ts.filter (see · (.fetching key 0 :: w.calls))) := by
  unfold fetch
  apply ends_cache.mpr
  cases ha : w.cache.admission.acquire? key with
  | none => exact writes_pure ⟨[], .refused _ (fun _ h => nomatch h), rfl⟩
  | some entered =>
    obtain ⟨acquired, slot⟩ := entered
    show (if host.accepts key = true then _ else _ : Act ν η μ (Fetched ν)).Ends w _
    split
    · refine writes_bracket rfl rfl (fun _ => ⟨rfl, rfl⟩) ?_
      apply (fetchInside_shows hs key factory options retries _ (hs.inside _ _ hw)).writes
      rintro r rs ⟨ts, hts, rfl⟩
      refine ⟨ts, hts, List.filter_congr fun reading _ => ?_⟩
      exact hslot reading key slot w.calls
    · exact writes_pure ⟨[], .refused _ (fun _ h => nomatch h), rfl⟩

theorem race_shows (hslot : ∀ reading key slot calls, see reading (.fetching key slot :: calls) =
      see reading (.fetching key 0 :: calls))
    (key : Key) (factory : η) (options : Options η) (retries callers : Nat) : ∀ w : World ν η μ,
    K w.calls → (race host invoke key factory options retries callers).Ends w
      (Writes (·.reading? see) w fun r rs => ∃ ts, rs = ts.filter (see · (.fetching key 0 :: w.calls)) ∧
        (Operation.race key factory options callers).Reads (r.map .raced) ts) := by
  induction callers with
  | zero =>
    have none : List.Forall₂ (fun fetched rs => FetchReads (ν := ν) key options (.ok fetched) rs) [] [] :=
      .nil
    exact fun w _ => writes_pure ⟨[], rfl, .raced none⟩
  | succ callers ih =>
    intro w hw
    refine writes_bind (fetch_shows hs hslot key factory options retries w hw) ?_ ?_
    · rintro first rs v hc ⟨ts, hts, rfl⟩
      have hrest := ih v (hc ▸ hw)
      rw [hc] at hrest
      refine writes_bind hrest ?_ ?_
      · rintro rest rs' u - ⟨ts', rfl, hts'⟩
        refine writes_pure ⟨ts ++ ts', ?_, ?_⟩
        · rw [List.append_nil, List.filter_append]
        · cases hts' with
          | raced h => exact .raced (.cons hts h)
          | other h => cases h
      · rintro halt rs' ⟨ts', rfl, hts'⟩
        refine ⟨ts ++ ts', List.filter_append .. |>.symm, ?_⟩
        cases hts' with
        | racing hlen h hlast =>
          rw [← List.append_assoc]
          exact .racing (Nat.succ_lt_succ hlen) (.cons hts h) hlast
        | other h => cases h
    · rintro halt rs ⟨ts, hts, rfl⟩
      have none : List.Forall₂ (fun fetched rs => FetchReads (ν := ν) key options (.ok fetched) rs)
          [] [] := .nil
      exact ⟨ts, rfl, .racing (Nat.succ_pos callers) none hts⟩

theorem carryOut_shows (hslot : ∀ reading key slot calls, see reading (.fetching key slot :: calls) =
      see reading (.fetching key 0 :: calls))
    (retries : Nat) (op : Operation ν η) (w : World ν η μ) (hw : K w.calls) :
    (carryOut host invoke retries op).Ends w (Writes (·.reading? see) w fun r rs => ∃ ts,
      op.Reads r ts ∧ rs = ts.filter (see · (op.frame w.calls))) := by
  have silent : op.isRead = false → (carryOut host invoke retries op).Ends w
      (Writes (·.reading? see) w fun r rs => ∃ ts,
        op.Reads r ts ∧ rs = ts.filter (see · (op.frame w.calls))) :=
    fun hop => ((Blind.inherited hs.inside host).carryOut hs.blind retries hop w hw).writes
      fun r _ hrs => ⟨[], .other hop r, hrs⟩
  cases op with
  | get key =>
    show (Act.keyed host key _).Ends w _
    unfold Act.keyed
    split
    · refine writes_bind (lookup_shows hs key retries w hw) ?_ ?_
      · rintro found rs v hc rfl
        exact writes_pure ⟨_, .found key found, List.append_nil _⟩
      · rintro halt rs rfl
        exact ⟨[], .unread key halt, rfl⟩
    · exact writes_pure ⟨[], .refused key _, rfl⟩
  | fetch key factory options =>
    refine writes_bind (fetch_shows hs hslot key factory options retries w hw) ?_ ?_
    · rintro fetched rs v hc ⟨ts, hts, rfl⟩
      cases fetched with
      | value value => exact writes_pure ⟨ts, .fetched hts, List.append_nil _⟩
      | refused cause => exact writes_pure ⟨ts, .unfetched hts, List.append_nil _⟩
    · rintro halt rs ⟨ts, hts, rfl⟩
      exact ⟨ts, .fetching hts, rfl⟩
  | race key factory options callers =>
    apply ends_cache.mpr
    split
    · refine writes_bind (race_shows hs hslot key factory options retries callers w hw) ?_ ?_
      · rintro results rs v hc ⟨ts, rfl, hts⟩
        exact writes_pure ⟨ts, hts, List.append_nil _⟩
      · rintro halt rs ⟨ts, rfl, hts⟩
        exact ⟨ts, hts, rfl⟩
    · exact writes_pure ⟨[], .unraced _, rfl⟩
  | _ => exact silent rfl

end

end Act

/-! ## Readings of the operation itself -/

/-- The frame is that of work at this depth, or that of a fetch which is this work. -/
def isOwn (depth : Nat) : List (Activity ν η) → Bool
  | .fetching _ _ :: outer => outer.length + 1 = depth || outer.length = depth
  | calls => calls.length = depth

theorem isOwn_self (calls : List (Activity ν η)) : isOwn calls.length calls = true := by
  unfold isOwn
  split <;> simp

theorem isOwn_frame (op : Operation ν η) (calls : List (Activity ν η)) :
    isOwn calls.length (op.frame calls) = true := by
  cases op <;> first | exact isOwn_self calls | simp [Operation.frame, isOwn]

/-- Work inside of a frame, other than a fetch, is not its own. -/
theorem isOwn_of_begun {depth : Nat} {a : Activity ν η} {calls inner : List (Activity ν η)}
    (ha : a.isBegun = true) (hd : depth ≤ calls.length) (hs : a :: calls <:+ inner) :
    isOwn depth inner = false := by
  obtain ⟨before, rfl⟩ := hs
  cases before with
  | nil =>
    rw [List.nil_append]
    cases a <;> simp [Activity.isBegun] at ha <;> simp [isOwn] <;> omega
  | cons b before => cases b <;> simp [isOwn] <;> omega

namespace Act

variable {host : Host ν η μ}

theorem call_shows_own (host : Host ν η μ) (n depth : Nat) :
    Shows (fun _ calls => isOwn depth calls) (depth ≤ ·.length) (call host n) where
  inside a calls h := Nat.le_succ_of_le h
  call c w hw := by
    apply call_writes
    intro l hl
    unfold Line.reading?
    rcases hl with ⟨a, ha, hs⟩ | ⟨-, hends⟩
    · have hno := isOwn_of_begun ha hw hs
      cases l.record.reading? <;> simp [hno]
    · have hnone : l.record.reading? = none := by
        unfold Line.concludes at hends
        cases hr : l.record <;> first | rfl | simp [hr] at hends
      rw [hnone]
      rfl

/-- The lines that an operation writes itself say what it has read. -/
theorem carryOut_reads (host : Host ν η μ) (n retries : Nat) (op : Operation ν η) (w : World ν η μ) :
    (carryOut host (call host n) retries op).Ends w
      (Writes (·.reading? fun _ calls => isOwn w.calls.length calls) w op.Reads) := by
  apply (carryOut_shows (call_shows_own host n w.calls.length) ?_ retries op w (Nat.le_refl _)).writes
  · rintro r rs ⟨ts, hts, rfl⟩
    rw [List.filter_eq_self.mpr fun _ _ => isOwn_frame op w.calls]
    exact hts
  · exact fun _ _ _ _ => rfl

theorem tick_reads_nothing (host : Host ν η μ) (n : Nat) (w : World ν η μ) :
    (tick host (call host n)).Ends w
      (Mute (·.reading? fun _ calls => isOwn w.calls.length calls) w) :=
  let hs := call_shows_own host n w.calls.length
  let hblind := Blind.inherited hs.inside host
  hblind.woven.tick hs.blind (hblind.change fun _ _ => rfl) w (Nat.le_refl _)

end Act

/-! ## Where reads end -/

/-- The work reads the value under `key`. -/
def readsIn (key : Key) : List (Activity ν η) → Bool
  | .operation (.get k) :: _ => k = key
  | .fetching k _ :: .operation (.fetch _ _ options) :: _ => k = key && !options.overwrite
  | .fetching k _ :: .operation (.race _ _ options _) :: _ => k = key && !options.overwrite
  | _ => false

/-- Reads that end anywhere else. -/
def stray : View ν η
  | .read key _, calls => !readsIn key calls
  | .made _, _ => false

theorem FetchReads.not_stray {key : Key} {options : Options η} {r : Except Halt (Fetched ν)}
    {rs : List Reading} (h : FetchReads key options r rs) {calls : List (Activity ν η)}
    (hc : options.overwrite = false → readsIn key calls = true) :
    ∀ reading ∈ rs, stray reading calls = false := by
  have lacking : ∀ reading ∈ options.lacking key ++ [.made key], stray reading calls = false := by
    intro reading hr
    unfold Options.lacking at hr
    cases ho : options.overwrite with
    | true =>
      simp only [ho, if_true, List.nil_append, List.mem_singleton] at hr
      rw [hr]
      rfl
    | false =>
      simp only [ho, Bool.false_eq_true, if_false, List.mem_append, List.mem_singleton] at hr
      rcases hr with rfl | rfl
      · simp [stray, hc ho]
      · rfl
  cases h with
  | found value ho =>
    intro reading hr
    rw [List.mem_singleton.mp hr]
    simp [stray, hc ho]
  | made => exact lacking
  | failed => exact lacking
  | refused => simp
  | unread => simp
  | unmade => exact lacking

theorem Operation.Reads.not_stray {op : Operation ν η} {r : Except Halt (Answer ν)}
    {rs : List Reading} (h : op.Reads r rs) (calls : List (Activity ν η)) :
    ∀ reading ∈ rs, stray reading (op.frame (.operation op :: calls)) = false := by
  have raced : ∀ {key : Key} {options : Options η} {frame : List (Activity ν η)}
      {results : List (Fetched ν)} {rss : List (List Reading)},
      (options.overwrite = false → readsIn key frame = true) →
      List.Forall₂ (fun fetched rs => FetchReads key options (.ok fetched) rs) results rss →
      ∀ reading ∈ rss.flatten, stray reading frame = false := by
    intro key options frame results rss hc hall
    induction hall with
    | nil => simp
    | cons hfirst _ ih =>
      intro reading hr
      rw [List.flatten_cons] at hr
      exact (List.mem_append.mp hr).elim (hfirst.not_stray hc reading) (ih reading)
  cases h with
  | found key value =>
    intro reading hr
    rw [List.mem_singleton.mp hr]
    simp [stray, Operation.frame, readsIn]
  | fetched h => exact h.not_stray fun ho => by simp [Operation.frame, readsIn, ho]
  | unfetched h => exact h.not_stray fun ho => by simp [Operation.frame, readsIn, ho]
  | fetching h => exact h.not_stray fun ho => by simp [Operation.frame, readsIn, ho]
  | raced h => exact raced (fun ho => by simp [Operation.frame, readsIn, ho]) h
  | racing _ h hlast =>
    intro reading hr
    rcases List.mem_append.mp hr with hr | hr
    · exact raced (fun ho => by simp [Operation.frame, readsIn, ho]) h reading hr
    · exact hlast.not_stray (fun ho => by simp [Operation.frame, readsIn, ho]) reading hr
  | _ => simp

namespace Act

/-- No work of the host or of the cache lets a read end astray. -/
abbrev Straight (x : Act ν η μ α) : Prop := x.Blind stray fun _ => True

variable {host : Host ν η μ} {invoke : Invoke ν η μ}

theorem Straight.inherited (host : Host ν η μ) : Inherited host (Blind stray fun _ => True) :=
  Blind.inherited (fun _ _ _ => trivial) host

theorem entered_straight (c : Callback ν η) : (note (.entered c) : Act ν η μ Unit).Straight := by
  refine fun w _ => ⟨rfl, [w.line (.entered c)], rfl, ?_⟩
  cases c <;> rfl

theorem shows_of_straight (h : ∀ c, (invoke c).Straight) : Shows stray (fun _ => True) invoke where
  inside _ _ _ := trivial
  call c w hw := by
    apply (h c w hw).writes
    rintro r _ rfl
    cases c <;> rfl

theorem operate_straight (h : ∀ c, (invoke c).Straight) (retries : Nat) (op : Operation ν η) :
    (operate host invoke retries op).Straight := by
  have hs := shows_of_straight h
  have carried : (during (.operation op) (carryOut host invoke retries op)).Straight := by
    refine fun w _ => writes_during ?_
    apply (carryOut_shows hs (fun reading key slot calls => ?_) retries op _ trivial).writes
    · rintro r rs ⟨ts, hts, rfl⟩
      refine List.filter_eq_nil_iff.mpr fun reading hr => ?_
      simp [hts.not_stray w.calls reading hr]
    · cases reading with
      | made => rfl
      | read k found =>
        unfold stray readsIn
        cases calls with
        | nil => rfl
        | cons a calls => cases a with
          | operation op => cases op <;> rfl
          | _ => rfl
  exact (Blind.inherited hs.inside host).operate hs.blind carried

theorem perform_straight (host : Host ν η μ) (depth : Nat) :
    ∀ op, (perform host depth op).Straight := by
  induction depth with
  | zero => exact fun op => (Straight.inherited host).throw _
  | succ depth ih =>
    refine fun op => (Straight.inherited host).woven.cache (fun _ _ => rfl) fun c => ?_
    split
    · exact operate_straight ((Straight.inherited host).callVia ih entered_straight) depth op
    · exact (Straight.inherited host).pure _

theorem turn_straight (host : Host ν η μ) (bound : Nat) (p : Program ν η μ α) :
    (turn host bound p).Straight :=
  (Straight.inherited host).turn (perform_straight host bound) entered_straight p

end Act

/-- Every read ended in work that reads its key. -/
def Grounded (journal : List (Line ν η)) : Prop :=
  ∀ l ∈ journal, ∀ key found, l.record = .read key found → readsIn key l.calls = true

theorem Grounded.append {w v : World ν η μ} {r : Except Halt α} (h : Grounded w.journal)
    (hm : Mute (·.reading? stray) w r v) : Grounded v.journal := by
  obtain ⟨-, seg, hj, hseg⟩ := hm
  intro l hl key found hr
  rw [hj] at hl
  rcases List.mem_append.mp hl with hl | hl
  · unfold excerpt at hseg
    have hnone := List.filterMap_eq_nil_iff.mp (List.reverse_eq_nil_iff.mp hseg) l hl
    simpa [Line.reading?, hr, Record.reading?, stray] using hnone
  · exact h l hl key found hr

variable {host : Host ν η μ} {settings : Settings η} {hosting : Hosting} {w : World ν η μ}

theorem Reachable.grounded (h : Reachable host settings hosting w) : Grounded w.journal := by
  have hbetween : ∀ {v : World ν η μ}, Between host settings hosting v → Grounded v.journal := by
    intro v hv
    induction hv with
    | fresh t memory =>
      intro l hl
      cases hl
    | turn bound p r _ hr ih =>
      exact ih.append ((Act.turn_straight host bound p _ trivial).of_ok hr)
  cases h with
  | between h => exact hbetween h
  | after bound p h =>
    obtain ⟨r, hr, -⟩ := (Act.turn_straight host bound p _ trivial).outcome
    exact (hbetween h).append hr

/-! ## The counters -/

structure Counted (s : Stats) (journal : List (Line ν η)) : Prop where
  hits : s.hits = journal.countP (·.reads true)
  misses : s.misses = journal.countP (·.reads false)

/-- The counters agree with the journal, and they did so at every line of it. -/
structure Checked (s : Stats) (journal : List (Line ν η)) : Prop where
  now : Counted s journal
  before : ∀ l earlier, l :: earlier <:+ journal → Counted l.cache.stats (l :: earlier)

namespace Checked

variable {s t : Stats} {journal seg : List (Line ν η)}

theorem cons {l : Line ν η} (h : Checked s journal) (hl : Counted l.cache.stats (l :: journal))
    (ht : t.hits = l.cache.stats.hits ∧ t.misses = l.cache.stats.misses) : Checked t (l :: journal) := by
  refine ⟨⟨ht.1.trans hl.hits, ht.2.trans hl.misses⟩, ?_⟩
  intro m earlier hs
  rcases List.suffix_cons_iff.mp hs with he | hs
  · cases he
    exact hl
  · exact h.before m earlier hs

theorem silent (h : Checked s journal) (ht : t.hits = s.hits ∧ t.misses = s.misses) :
    Checked t journal := ⟨⟨ht.1.trans h.now.hits, ht.2.trans h.now.misses⟩, h.before⟩

/-- A line at which no read ends and nothing is counted. -/
theorem quiet {l : Line ν η} (h : Checked s journal) (hl : ∀ found, l.reads found = false)
    (hs : l.cache.stats.hits = s.hits ∧ l.cache.stats.misses = s.misses)
    (ht : t.hits = s.hits ∧ t.misses = s.misses) : Checked t (l :: journal) := by
  refine h.cons ⟨?_, ?_⟩ ⟨ht.1.trans hs.1.symm, ht.2.trans hs.2.symm⟩
  · simp only [List.countP_cons, hl, Bool.false_eq_true, if_false, Nat.add_zero]
    exact hs.1.trans h.now.hits
  · simp only [List.countP_cons, hl, Bool.false_eq_true, if_false, Nat.add_zero]
    exact hs.2.trans h.now.misses

theorem append (h : Checked s journal)
    (hseg : ∀ l ∈ seg, (∀ found, l.reads found = false) ∧ l.cache.stats.hits = s.hits ∧
      l.cache.stats.misses = s.misses)
    (ht : t.hits = s.hits ∧ t.misses = s.misses) : Checked t (seg ++ journal) := by
  induction seg generalizing t with
  | nil => exact h.silent ht
  | cons l seg ih =>
    obtain ⟨hl, hs⟩ := hseg l (List.mem_cons_self ..)
    have hrest : Checked l.cache.stats (seg ++ journal) :=
      ih (fun m hm => hseg m (List.mem_cons_of_mem _ hm)) hs
    exact hrest.quiet hl ⟨rfl, rfl⟩ ⟨ht.1.trans hs.1.symm, ht.2.trans hs.2.symm⟩

end Checked

namespace Line

theorem reads_of_remark {l : Line ν η} (h : l.record.isRemark = true) (found : Bool) :
    l.reads found = false := by
  unfold Line.reads
  cases hr : l.record <;> first | rfl | simp [hr, Record.isRemark] at h

theorem reads_of_consults {l : Line ν η} (h : l.consults = true) (found : Bool) :
    l.reads found = false := by
  apply reads_of_remark
  unfold Line.consults at h
  cases hr : l.record <;> first | rfl | simp [hr] at h

end Line

theorem World.placedLines_checked {w : World ν η μ} {key : Key} {value : ν}
    {policy : Option (Policy η)} : ∀ l ∈ w.placedLines key value policy,
      (∀ found, l.reads found = false) ∧ l.cache.stats.hits = w.cache.stats.hits ∧
        l.cache.stats.misses = w.cache.stats.misses := by
  unfold World.placedLines
  cases w.cache.find? key with
  | none =>
    intro l hl
    rw [List.mem_singleton.mp hl]
    exact ⟨fun _ => rfl, rfl, rfl⟩
  | some old =>
    intro l hl
    simp only [List.mem_cons, List.not_mem_nil, or_false] at hl
    rcases hl with rfl | rfl <;> exact ⟨fun _ => rfl, rfl, rfl⟩

/-- Every stretch of work counts each read that ends in it, and nothing else. -/
theorem Stretch.checked {w v : World ν η μ} (h : Stretch w v)
    (hw : Checked w.cache.stats w.journal) : Checked v.cache.stats v.journal := by
  -- the lines of a question that is put after a round, and the round's own line
  have decided : ∀ {w v : World ν η μ} {g : Nat} {key : Key} {value : ν} {answers : List Decision}
      {answer : Option Bool}, Checked w.cache.stats w.journal →
      (w.note (.decided g key value answers)).Examines key g answer v →
      Checked v.cache.stats v.journal ∧ v.cache = w.cache := by
    intro w v g key value answers answer hw hx
    obtain ⟨asked, -, hj, hc, -, -, hasked⟩ := hx.told
    have hdecided : Checked w.cache.stats (w.line (.decided g key value answers) :: w.journal) :=
      hw.quiet (fun _ => rfl) ⟨rfl, rfl⟩ ⟨rfl, rfl⟩
    rw [hj, hc]
    refine ⟨hdecided.append (fun l hl => ?_) ⟨rfl, rfl⟩, rfl⟩
    rw [(hasked l hl).2]
    exact ⟨Line.reads_of_consults (hasked l hl).1, rfl, rfl⟩
  induction h with
  | still => exact hw
  | trans _ _ ih ih' => exact ih' (ih hw)
  | clock t ht => exact hw
  | memory m => exact hw
  | note r hr => exact hw.quiet (Line.reads_of_remark hr) ⟨rfl, rfl⟩ ⟨rfl, rfl⟩
  | aside f hf => exact hw.silent (by rw [World.cache_change, hf.stats]; exact ⟨rfl, rfl⟩)
  | touch key => exact hw
  | @read w key found =>
    refine hw.cons ⟨?_, ?_⟩ ⟨rfl, rfl⟩
    · cases found with
      | true => exact (congrArg (· + 1) hw.now.hits).trans (List.countP_cons_of_pos rfl).symm
      | false => exact hw.now.hits
    · cases found with
      | true => exact hw.now.misses
      | false => exact (congrArg (· + 1) hw.now.misses).trans (List.countP_cons_of_pos rfl).symm
  | @place w key value policy =>
    rw [World.journal_placed, World.cache_placed]
    exact hw.append World.placedLines_checked ⟨rfl, rfl⟩
  | remove key e hf => exact hw.quiet (fun _ => rfl) ⟨rfl, rfl⟩ ⟨rfl, rfl⟩
  | @empty w =>
    rw [World.emptied_eq]
    refine hw.append ?_ ⟨rfl, rfl⟩
    intro l hl
    obtain ⟨r, -, rfl⟩ := List.mem_map.mp (List.mem_reverse.mp hl)
    exact ⟨fun _ => rfl, rfl, rfl⟩
  | vetoed g key value answers hv => exact hw.quiet (fun _ => rfl) ⟨rfl, rfl⟩ ⟨rfl, rfl⟩
  | @concluded w v g key value answers u hno hv =>
    cases hv with
    | stale hx => exact (decided hw hx).1
    | unwound hx => exact (decided hw hx).1
    | @evicted v e he hx =>
      obtain ⟨hv, hc⟩ := decided hw hx
      exact hv.quiet (fun _ => rfl) ⟨rfl, rfl⟩ ⟨rfl, rfl⟩
  | during a ha _ ih => exact ih hw
  | deciding key g e he hp _ ih => exact ih hw
  | holding key acquired slot ha _ ih => exact ih hw

theorem Reachable.checked (h : Reachable host settings hosting w) :
    Checked w.cache.stats w.journal := by
  obtain ⟨t, memory, hs⟩ := h.stretch
  refine hs.checked ⟨⟨rfl, rfl⟩, fun l earlier hl => ?_⟩
  cases List.suffix_nil.mp hl

/-- The counters tell the reads that ended with a value from those that ended without one, at every
moment and whatever callbacks did in between. Each of these ended in work that reads its key; an
operation ends one read if it reads to the end, and none if it is unwound before or does not read. -/
theorem Reachable.reads_are_counted_once (h : Reachable host settings hosting w) :
    Checked w.cache.stats w.journal ∧ Grounded w.journal ∧
    (∀ (n retries : Nat) (op : Operation ν η) (v : World ν η μ),
      (Act.carryOut host (Act.call host n) retries op).Ends v
        (Writes (·.reading? fun _ calls => isOwn v.calls.length calls) v op.Reads)) ∧
    ∀ (n : Nat) (v : World ν η μ), (Act.tick host (Act.call host n)).Ends v
      (Mute (·.reading? fun _ calls => isOwn v.calls.length calls) v) :=
  ⟨h.checked, h.grounded, fun n retries op => Act.carryOut_reads host n retries op,
    fun n => Act.tick_reads_nothing host n⟩

/-- A read that is asked whether an entry expires, and reads it again while it is asked. -/
theorem World.expiredRead_counts_its_reads :
    Counted World.expiredRead.cache.stats World.expiredRead.journal ∧
      World.expiredRead.cache.stats.hits + World.expiredRead.cache.stats.misses = 2 :=
  ⟨(Reachable.reads_are_counted_once (.between expiredRead_between)).1.now, by decide⟩

end ExpiringCache
