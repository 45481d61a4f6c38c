import ExpiringCache.Proofs.Deadlines
import ExpiringCache.Proofs.Stretches

/-!
# Where entries come from

Every insertion is made by an operation that is in progress, at the instant which the clock reads when
the host has given all it is asked for: the value, if it is fetched, and after it the policy, if the
operation names none. From then on an entry changes by touches and by the mark of a decision only.
-/

namespace ExpiringCache

variable {ν η μ α β : Type}

def Record.isInsertion : Record ν η → Bool
  | .inserted .. => true
  | _ => false

def Operation.Fetches (key : Key) (factory : η) (options : Options η) : Operation ν η → Prop
  | .fetch k f o => k = key ∧ f = factory ∧ o = options
  | .race k f o _ => k = key ∧ f = factory ∧ o = options
  | _ => False

/-- An insertion for which `given` is named comes to have `policy`. Whoever has to be asked for that
was asked after `earlier`, the last line of which was written at `start`, and had answered by
`later`, at `stop`. -/
inductive Provides (settings : Settings η) (calls : List (Activity ν η)) (key : Key) :
    (given policy : Option (Policy η)) → (start stop : Instant) →
    (earlier later : List (Line ν η)) → Prop
  | own (policy : Policy η) (t : Instant) (lines : List (Line ν η)) :
      Provides settings calls key (some policy) (some policy) t t lines lines
  | nobody (h : settings.defaultPolicy = none) (t : Instant) (lines : List (Line ν η)) :
      Provides settings calls key none none t t lines lines
  | asked {handler : η} {policy : Option (Policy η)} (begun said : Line ν η)
      (inside earlier : List (Line ν η))
      (h : settings.defaultPolicy = some handler)
      (hbegun : begun.record = .entered (.defaultPolicy handler key) ∧ begun.calls = calls)
      (hsaid : said.record = .returned (.defaultPolicy handler key) policy ∧ said.calls = calls)
      (hinside : ∀ l ∈ inside, calls <:+ l.calls) :
      Provides settings calls key none policy begun.now said.now earlier
        (said :: (inside ++ begun :: earlier))

namespace Line

/-- The operation in progress inserts this value with this policy, by what was written `before`. -/
inductive Stems (l : Line ν η) (key : Key) (value : ν) (policy : Option (Policy η)) :
    (before : List (Line ν η)) → Prop
  -- between the answer and the insertion the entry that is there may have been asked about
  | named {options : Options η} {outer : List (Activity ν η)} {start : Instant}
      {earlier later : List (Line ν η)} (asked : List (Line ν η))
      (h : l.calls = .operation (.insert key value options) :: outer)
      (hp : Provides l.cache.settings l.calls key options.policy policy start l.now earlier later)
      (hasked : ∀ m ∈ asked, m.consults = true ∧ m.calls = l.calls) :
      l.Stems key value policy (asked ++ later)
  | fetched {factory : η} {options : Options η} {op : Operation ν η} {slot : Nat}
      {outer : List (Activity ν η)} {earlier later : List (Line ν η)} (made : Line ν η)
      (h : l.calls = .fetching key slot :: .operation op :: outer)
      (hop : op.Fetches key factory options)
      (hmade : made.record = .returned (.factory factory key) (.ok value) ∧ made.calls = l.calls)
      (hp : Provides l.cache.settings l.calls key options.policy policy made.now l.now
        (made :: earlier) later) :
      l.Stems key value policy later

/-- An insertion is made when its line is written, with what the operation in progress has got for
it. -/
def Founded (l : Line ν η) (before : List (Line ν η)) : Prop :=
  ∀ g key value, l.record = .inserted g key value → ∃ policy,
    l.cache.find? key = some (.insertedAt l.now value policy g) ∧ l.Stems key value policy before

theorem founded_of_not_insertion {l : Line ν η} (h : l.record.isInsertion = false)
    (before : List (Line ν η)) : l.Founded before := by
  intro g key value hr
  rw [hr] at h
  cases h

end Line

/-- Work that founds every insertion it makes. -/
structure Founding (w v : World ν η μ) : Prop where
  stretch : Stretch w v
  lines : ∀ l before, l :: before <:+ v.journal → l :: before <:+ w.journal ∨ l.Founded before

namespace Founding

variable {w v u : World ν η μ}

theorem still (w : World ν η μ) : Founding w w := ⟨.still, fun _ _ => .inl⟩

theorem trans (h : Founding w v) (k : Founding v u) : Founding w u := by
  refine ⟨h.stretch.trans k.stretch, fun l before hs => ?_⟩
  rcases k.lines l before hs with hv | hf
  · exact h.lines l before hv
  · exact .inr hf

theorem of_lines (seg : List (Line ν η)) (h : Stretch w v) (hj : v.journal = seg ++ w.journal)
    (hseg : ∀ l ∈ seg, l.record.isInsertion = false) : Founding w v := by
  refine ⟨h, fun l before hs => ?_⟩
  rw [hj] at hs
  clear hj
  induction seg with
  | nil => exact .inl hs
  | cons m seg ih =>
    rcases List.suffix_cons_iff.mp hs with heq | hs
    · cases heq
      exact .inr (Line.founded_of_not_insertion (hseg l (List.mem_cons_self ..)) _)
    · exact ih (fun l hl => hseg l (List.mem_cons_of_mem _ hl)) hs

theorem quiet (h : Stretch w v) (hj : v.journal = w.journal) : Founding w v :=
  .of_lines [] h hj (by simp)

/-- The work around some other work writes no lines of its own. -/
theorem around {w₀ v₀ : World ν η μ} (h : Stretch w v) (k : Founding w₀ v₀)
    (hw : w₀.journal = w.journal) (hv : v.journal = v₀.journal) : Founding w v := by
  refine ⟨h, fun l before hs => ?_⟩
  rw [← hw]
  exact k.lines l before (hv ▸ hs)

theorem note {r : Record ν η} (hs : Stretch w (w.note r)) (hr : r.isInsertion = false) :
    Founding w (w.note r) := by
  refine .of_lines [w.line r] hs rfl fun l hl => ?_
  rw [List.mem_singleton.mp hl]
  exact hr

theorem emptied (f : Cache ν η → Cache ν η) (h : Stretch w (w.change f).emptied) :
    Founding w (w.change f).emptied := by
  rw [World.emptied_eq] at h ⊢
  refine .of_lines _ h rfl fun l hl => ?_
  obtain ⟨r, -, rfl⟩ := List.mem_map.mp (List.mem_reverse.mp hl)
  rfl

end Founding

theorem Line.not_insertion_of_consults {l : Line ν η} (h : l.consults = true) :
    l.record.isInsertion = false := by
  unfold Line.consults at h
  cases hr : l.record <;> first | rfl | simp [hr] at h

theorem World.Commits.no_insertion {w v : World ν η μ} {key : Key} {g : Nat} {u : Upshot}
    (h : w.Commits key g u v) :
    ∃ new, v.journal = new ++ w.journal ∧ ∀ l ∈ new, l.record.isInsertion = false := by
  have asked : ∀ {answer : Option Bool} {v : World ν η μ}, w.Examines key g answer v →
      ∃ new, v.journal = new ++ w.journal ∧ ∀ l ∈ new, l.record.isInsertion = false := by
    intro answer v hx
    obtain ⟨asked, hj, hasked⟩ := hx.lines
    exact ⟨asked, hj, fun l hl => Line.not_insertion_of_consults (hasked l hl).1⟩
  cases h with
  | stale hx => exact asked hx
  | unwound hx => exact asked hx
  | @evicted v e he hx =>
    obtain ⟨new, hj, hnew⟩ := asked hx
    refine ⟨_ :: new, congrArg (List.cons _) hj, fun l hl => ?_⟩
    rcases List.mem_cons.mp hl with rfl | hl
    · rfl
    · exact hnew l hl

theorem Founding.paths : Paths (Founding : World ν η μ → World ν η μ → Prop) (fun _ => True) where
  still := .still
  trans := .trans
  memory m := .quiet (.memory m) rfl
  note r hr _ := .note (.note r hr) (by cases r <;> first | rfl | cases hr)
  retune f h := .quiet (.aside f h.toAside) rfl
  touch key _ _ _ := .quiet (.touch key) rfl
  read key found := .of_lines [_] (.read key found) rfl fun l hl => by
    rw [List.mem_singleton.mp hl]
    rfl
  vetoed g key value answers h :=
    .of_lines [_] (.vetoed g key value answers h) rfl fun l hl => by
      rw [List.mem_singleton.mp hl]
      rfl
  concluded {w v} g key value answers u h _ hv := by
    obtain ⟨new, hj, hnew⟩ := hv.no_insertion
    refine .of_lines (new ++ [w.line (.decided g key value answers)])
      (.concluded g key value answers u h hv) ?_ fun l hl => ?_
    · rw [hj, List.append_assoc]
      rfl
    · rcases List.mem_append.mp hl with hl | hl
      · exact hnew l hl
      · rw [List.mem_singleton.mp hl]
        rfl
  close h := .emptied _ (Stretch.paths.close h)
  during a ha h := .around (.during a ha h.stretch) h rfl rfl
  deciding key g e he hp _ h := .around (.deciding key g e he hp h.stretch) h rfl rfl
  holding key acquired slot ha h := .around (.holding key acquired slot ha h.stretch) h rfl rfl

theorem Founding.placed {w : World ν η μ} {key : Key} {value : ν} {policy : Option (Policy η)}
    (h : ((w.change (.insert w.now key value policy)).line
      (.inserted w.cache.nextGeneration key value)).Stems key value policy w.journal) :
    Founding w (w.placed key value policy) := by
  have came : ((w.change (.insert w.now key value policy)).line
      (.inserted w.cache.nextGeneration key value)).Founded w.journal := by
    intro g j v hr
    cases hr
    refine ⟨policy, ?_, h⟩
    exact (Cache.find?_insert ..).trans (if_pos rfl)
  refine ⟨.place key value policy, fun l before hs => ?_⟩
  rw [World.journal_placed] at hs
  unfold World.placedLines at hs
  cases hold : w.cache.find? key with
  | none =>
    rw [hold] at hs
    rcases List.suffix_cons_iff.mp hs with heq | hs
    · cases heq
      exact .inr came
    · exact .inl hs
  | some old =>
    rw [hold] at hs
    rcases List.suffix_cons_iff.mp hs with heq | hs
    · cases heq
      exact .inr (Line.founded_of_not_insertion rfl _)
    · rcases List.suffix_cons_iff.mp hs with heq | hs
      · cases heq
        exact .inr came
      · exact .inl hs

namespace Act

variable {host : Host ν η μ} {invoke : Invoke ν η μ}

/-- The host's functions found what they insert, and the line of their answer is their last one. -/
def Replies (invoke : Invoke ν η μ) : Prop :=
  ∀ c w, (invoke c).Ends w fun r v => Founding w v ∧ ∀ answer, r = .ok answer →
    ∃ u, Founding (w.note (.entered c)) u ∧ v = u.note (.returned c answer)

theorem Replies.founding (hi : Replies invoke) (c : Callback ν η) : (invoke c).Follows Founding :=
  fun w => (hi c w).mono fun _ _ h => h.1

theorem policyFor_provides (hi : Replies invoke) (key : Key) (given : Option (Policy η))
    (w : World ν η μ) :
    (policyFor invoke key given).Ends w fun r v => Founding w v ∧ ∀ policy, r = .ok policy →
      Provides w.cache.settings w.calls key given policy w.now v.now w.journal v.journal := by
  cases given with
  | some policy =>
    refine ends_pure.mpr ⟨.still w, fun _ h => ?_⟩
    cases h
    exact .own policy ..
  | none =>
    apply ends_cache.mpr
    cases hd : w.cache.settings.defaultPolicy with
    | none =>
      refine ends_pure.mpr ⟨.still w, fun _ h => ?_⟩
      cases h
      exact .nobody hd ..
    | some handler =>
      apply (hi (.defaultPolicy handler key) w).mono
      rintro r v ⟨hv, hsaid⟩
      refine ⟨hv, fun policy hr => ?_⟩
      obtain ⟨u, hu, rfl⟩ := hsaid policy hr
      obtain ⟨inside, hj, hinside⟩ := hu.stretch.segment
      rw [World.journal_note, hj]
      exact .asked (w.line _) (u.line _) inside w.journal hd ⟨rfl, rfl⟩ ⟨rfl, hu.stretch.calls⟩
        hinside

theorem store_founding (hi : Replies invoke) {w : World ν η μ} {key : Key} {value : ν}
    {policy : Option (Policy η)}
    (h : ((w.change (.insert w.now key value policy)).line
      (.inserted w.cache.nextGeneration key value)).Stems key value policy w.journal) :
    (store invoke key value policy).Ends w fun _ v => Founding w v := by
  have hplaced : Founding w ((w.placed key value policy).tended policy) := by
    cases policy with
    | none => exact Founding.placed h
    | some policy =>
      exact (Founding.placed h).trans (Founding.paths.retune _ (Cache.retunes_ensureTimer _))
  apply ends_store
  · exact fun _ => hplaced
  · intro old _
    have hrest := releaseIfSet_follows Founding.paths (fun c _ => hi.founding c) key old
    exact (hrest _).mono fun _ _ hs => hplaced.trans hs

theorem insert_founding (hi : Replies invoke) (host : Host ν η μ) {w : World ν η μ} {key : Key}
    {value : ν} {options : Options η} {outer : List (Activity ν η)}
    (hc : w.calls = .operation (.insert key value options) :: outer) :
    (insert host invoke key value options).Ends w fun _ v => Founding w v := by
  unfold insert
  apply (policyFor_provides hi key options.policy w).bind
  · rintro policy v ⟨hv, hprovides⟩
    have hp := hprovides policy rfl
    have hcalls := hv.stretch.calls
    rw [← hcalls, ← hv.stretch.settings] at hp
    split
    · refine (store_founding hi ?_).mono fun _ _ hs => hv.trans hs
      exact .named [] (hcalls.trans hc) hp (by simp)
    · apply ((occupied_follows Founding.paths host key v).and (occupied_inquiry host key v)).bind
      · rintro taken u ⟨hu, hx⟩
        cases taken with
        | true => exact hv.trans hu
        | false =>
          refine (store_founding hi ?_).mono fun _ _ hs => (hv.trans hu).trans hs
          obtain ⟨asked, hj, hasked, -⟩ := hx.lines
          rw [← hx.cache, ← hx.calls, ← hx.now] at hp
          rw [hj]
          refine .named asked (hx.calls.trans (hcalls.trans hc)) hp fun l hl => ?_
          exact ⟨(hasked l hl).1, (hasked l hl).2.trans hx.calls.symm⟩
      · exact fun _ _ h => hv.trans h.1
  · exact fun _ _ h => h.1

theorem make_founding (hi : Replies invoke) (host : Host ν η μ) {w : World ν η μ} {key : Key}
    {factory : η} {options : Options η} {op : Operation ν η} {slot : Nat}
    {outer : List (Activity ν η)} (hc : w.calls = .fetching key slot :: .operation op :: outer)
    (hop : op.Fetches key factory options) :
    (make host invoke key factory options).Ends w fun _ v => Founding w v := by
  unfold make
  apply (hi (.factory factory key) w).bind
  · rintro made v ⟨hv, hmade⟩
    obtain ⟨u, hu, rfl⟩ := hmade made rfl
    have hcalls : u.calls = w.calls := hu.stretch.calls
    cases made with
    | error message => exact hv
    | ok value =>
      refine Ends.bind (P := fun _ v => Founding w v) ?_ (fun _ _ h => h) fun _ _ h => h
      unfold insert
      apply (policyFor_provides hi key options.policy (u.note _)).bind
      · rintro policy v' ⟨hv', hprovides⟩
        have hp := hprovides policy rfl
        rw [← hv'.stretch.calls, ← hv'.stretch.settings] at hp
        rw [if_pos rfl]
        refine (store_founding hi ?_).mono fun _ _ hs => (hv.trans hv').trans hs
        have hcalls' : v'.calls = w.calls := hv'.stretch.calls.trans hcalls
        exact .fetched (u.line _) (hcalls'.trans hc) hop ⟨rfl, hcalls.trans hcalls'.symm⟩ hp
      · exact fun _ _ h => hv.trans h.1
  · exact fun _ _ h => h.1

theorem fetch_founding (hi : Replies invoke) (host : Host ν η μ) {w : World ν η μ} {key : Key}
    {factory : η} {options : Options η} {op : Operation ν η} {outer : List (Activity ν η)}
    (hc : w.calls = .operation op :: outer) (hop : op.Fetches key factory options) (retries : Nat) :
    (fetch host invoke key factory options retries).Ends w fun _ v => Founding w v := by
  unfold fetch
  apply ends_cache.mpr
  cases ha : w.cache.admission.acquire? key with
  | none => exact Founding.still w
  | some entered =>
    obtain ⟨acquired, slot⟩ := entered
    dsimp only
    split
    · refine ends_bracket (Ends.mono (P := fun _ v => Founding _ v) ?_
        fun _ _ hs => Founding.paths.holding key acquired slot ha hs)
      have hframe : ((w.change ({ · with admission := acquired })).push (.fetching key slot)).calls =
          .fetching key slot :: .operation op :: outer := congrArg (List.cons _) hc
      unfold fetchInside
      split
      · exact make_founding hi host hframe hop
      · apply (lookup_follows Founding.paths (fun c _ => hi.founding c) host .full key retries _).bind
        · intro found v hv
          cases found with
          | some value => exact hv
          | none =>
            refine (make_founding hi host (hv.stretch.calls.trans hframe) hop).mono ?_
            exact fun _ _ hs => hv.trans hs
        · exact fun _ _ h => h
    · exact Founding.still w

theorem race_founding (hi : Replies invoke) (host : Host ν η μ) {w : World ν η μ} {key : Key}
    {factory : η} {options : Options η} {op : Operation ν η} {outer : List (Activity ν η)}
    (hc : w.calls = .operation op :: outer) (hop : op.Fetches key factory options)
    (retries callers : Nat) :
    (race host invoke key factory options retries callers).Ends w fun _ v => Founding w v := by
  induction callers generalizing w with
  | zero => exact Founding.still w
  | succ callers ih =>
    apply (fetch_founding hi host hc hop retries).bind
    · intro first v hv
      apply (ih (hv.stretch.calls.trans hc)).bind
      · exact fun rest u hu => hv.trans hu
      · exact fun _ _ hu => hv.trans hu
    · exact fun _ _ h => h

theorem keyed_founding {w : World ν η μ} {key : Key} {work : Act ν η μ (Answer ν)}
    (h : work.Ends w fun _ v => Founding w v) :
    (keyed host key work).Ends w fun _ v => Founding w v := by
  unfold keyed
  split
  · exact h
  · exact Founding.still w

/-- Whatever an operation inserts by itself is what it names or what it has got for itself. -/
theorem carryOut_founding (hi : Replies invoke) (host : Host ν η μ) (retries : Nat)
    {op : Operation ν η} {w : World ν η μ} {outer : List (Activity ν η)}
    (hc : w.calls = .operation op :: outer) :
    (carryOut host invoke retries op).Ends w fun _ v => Founding w v := by
  have others : Permits host Founding (fun _ => True) op →
      (carryOut host invoke retries op).Ends w fun _ v => Founding w v :=
    fun h => carryOut_follows Founding.paths (fun c _ => hi.founding c) host retries h w
  cases op with
  | insert key value options =>
    apply keyed_founding
    exact (insert_founding hi host hc).bind (fun _ _ h => h) fun _ _ h => h
  | fetch key factory options =>
    apply (fetch_founding hi host hc ⟨rfl, rfl, rfl⟩ retries).bind
    · intro fetched v hv
      cases fetched <;> exact hv
    · exact fun _ _ h => h
  | race key factory options callers =>
    apply ends_cache.mpr
    split
    · exact (race_founding hi host hc ⟨rfl, rfl, rfl⟩ retries callers).bind (fun _ _ h => h)
        fun _ _ h => h
    · exact Founding.still w
  | remove key =>
    refine others fun v e he => .of_lines [_] (.remove key e he) rfl fun l hl => ?_
    rw [List.mem_singleton.mp hl]
    rfl
  | clear => exact others fun v => .emptied id .empty
  | drop => exact others fun v => .quiet (.aside _ ⟨rfl, rfl, rfl, rfl, rfl⟩) rfl
  | _ => exact others trivial

theorem operate_founding (hi : Replies invoke) (host : Host ν η μ) (retries : Nat)
    (op : Operation ν η) : (operate host invoke retries op).Follows Founding := by
  have hR := Founding.paths (ν := ν) (η := η) (μ := μ)
  have carried : (attempt (during (.operation op) (carryOut host invoke retries op))).Follows
      Founding :=
    .attempt fun w => ends_bracket ((carryOut_founding hi host retries rfl).mono fun _ _ hs =>
      hR.during (.operation op) rfl hs)
  exact .bind hR (.attempt (.bind hR carried fun result =>
    .bind hR (closeUnused_follows hR fun c _ => hi.founding c) fun _ => resume_follows hR result))
      fun result => .note hR rfl (fun _ h => nomatch h) (resume_follows hR result)

theorem elapsed_founding (span : Span) (w : World ν η μ) :
    Founding w { w with now := w.now.advance span } := .quiet (Stretch.elapsed span w) rfl

theorem callVia_replies {perform : Operation ν η → Act ν η μ (Answer ν)}
    (hp : ∀ op, (perform op).Follows Founding) : Replies (callVia host perform) := by
  intro c w
  have hR := Founding.paths (ν := ν) (η := η) (μ := μ)
  have entered : Founding w (w.note (.entered c)) := hR.note _ rfl fun c _ => c.makesFor_all
  have any : (host.respond c).Only fun _ => True := Program.only_of_all (fun _ => trivial) _
  have responds := run_follows hR (fun op _ => hp op) (host.respond c) any fun span _ =>
    elapsed_founding span
  unfold callVia
  apply ends_note.mpr
  refine Ends.bind (P := fun _ u => Founding (w.note (.entered c)) u)
    (ends_attempt (responds (w.note (.entered c)))) ?_ ?_
  · intro result u hu
    have noted : ∀ r : Record ν η, r.isRemark = true → r.isInsertion = false →
        Founding w (u.note r) :=
      fun r hr hi => (entered.trans hu).trans (.note (.note r hr) hi)
    cases result with
    | ok answer =>
      refine ends_note.mpr (ends_pure.mpr ⟨noted _ rfl rfl, fun _ h => ?_⟩)
      cases h
      exact ⟨u, hu, rfl⟩
    | error message =>
      exact ends_note.mpr (ends_throw.mpr ⟨noted _ rfl rfl, fun _ h => nomatch h⟩)
  · exact fun _ u hu => ⟨entered.trans hu, fun _ h => nomatch h⟩

theorem perform_founding (host : Host ν η μ) (depth : Nat) :
    ∀ op, (perform host depth op).Follows Founding := by
  induction depth with
  | zero => exact fun op => .throw Founding.paths
  | succ depth ih =>
    refine fun op => .cache fun c => ?_
    split
    · exact operate_founding (callVia_replies ih) host depth op
    · exact .pure Founding.paths

theorem turn_founding (host : Host ν η μ) (bound : Nat) (p : Program ν η μ α) :
    (turn host bound p).Follows Founding := by
  have hR := Founding.paths (ν := ν) (η := η) (μ := μ)
  have hi : Replies (call host bound) := callVia_replies (perform_founding host bound)
  have any : p.Only fun _ => True := Program.only_of_all (fun _ => trivial) _
  have runs := run_follows hR (fun op _ => perform_founding host bound op) p any fun span _ =>
    elapsed_founding span
  have set : ∀ (timer : Option Timer) (w : World ν η μ), Founding w (w.change (.setTimer timer)) :=
    fun timer w => .quiet (Stretch.scheduled timer w) rfl
  have settles := settle_of_ticks hR.still hR.trans set
    (guardedTick_follows hR (fun c _ => hi.founding c) set host)
  exact .bind hR (.attempt runs) fun _ => .bind hR settles fun _ => .pure hR

end Act

variable {host : Host ν η μ} {settings : Settings η} {hosting : Hosting} {w : World ν η μ}

theorem Reachable.founded (h : Reachable host settings hosting w) {l : Line ν η}
    {before : List (Line ν η)} (hs : l :: before <:+ w.journal) : l.Founded before := by
  obtain ⟨t, memory, hf⟩ := h.path .still .trans fun bound p => Act.turn_founding host bound p
  rcases hf.lines l before hs with hnil | hl
  · cases List.suffix_nil.mp hnil
  · exact hl

/-! ## What is stored -/

namespace Entry

def marked (pending : Bool) (e : Entry ν η) : Entry ν η := { e with pending := pending }

/-- The entry after a move that lets it be: only its mark is another, or it was touched. -/
inductive Resumes (now : Instant) (e : Entry ν η) : Entry ν η → Prop
  | marked (pending : Bool) : e.Resumes now (e.marked pending)
  | touched : e.Resumes now (e.touch now)

/-- The entry came in with the line and was touched at these instants since, one after the other. -/
structure Traced (e : Entry ν η) (key : Key) (l : Line ν η) (policy : Option (Policy η))
    (touches : List Instant) : Prop where
  record : l.record = .inserted e.generation key e.value
  stored : l.cache.find? key = some (.insertedAt l.now e.value policy e.generation)
  touched : (made l.now touches e.value policy e.generation).marked e.pending = e

variable {e e' : Entry ν η} {key : Key} {l : Line ν η} {policy : Option (Policy η)}
  {touches : List Instant} {now : Instant}

theorem Traced.resumes (h : e.Traced key l policy touches) (hr : e.Resumes now e') :
    e'.Traced key l policy touches ∨ e'.Traced key l policy (touches ++ [now]) := by
  cases hr with
  | marked pending => exact .inl ⟨h.record, h.stored, congrArg (·.marked pending) h.touched⟩
  | touched =>
    refine .inr ⟨h.record, h.stored, ?_⟩
    rw [made_snoc]
    exact congrArg (·.touch now) h.touched

end Entry

theorem Cache.resumes_mark {c : Cache ν η} {pending : Bool} {key j : Key} {g : Nat}
    {e' : Entry ν η} (now : Instant) (h : (c.mark pending key g).find? j = some e') :
    ∃ e, c.find? j = some e ∧ e.Resumes now e' := by
  obtain ⟨e, he, marked, rfl⟩ := exists_of_find?_mark h
  exact ⟨e, he, .marked marked⟩

theorem Cache.resumes_touch {c : Cache ν η} {key j : Key} {e' : Entry ν η} {now : Instant}
    (h : (c.touch now key).find? j = some e') : ∃ e, c.find? j = some e ∧ e.Resumes now e' := by
  obtain ⟨e, he, rfl | ⟨-, rfl⟩⟩ := exists_of_find?_touch h
  · exact ⟨e', he, .marked e'.pending⟩
  · exact ⟨e, he, .touched⟩

/-- What is stored after a move came in with it or goes on. -/
theorem Move.resumes {level : Nat} {w w' : World ν η μ} (h : Move level w w') {key : Key}
    {e' : Entry ν η} (he : w'.cache.find? key = some e') :
    (∃ l ∈ w'.journal, ∃ policy, l.now = w.now ∧ e'.Traced key l policy []) ∨
      ∃ e, w.cache.find? key = some e ∧ e.Resumes w.now e' := by
  have same : w.cache.find? key = some e' →
      (∃ l ∈ w'.journal, ∃ policy, l.now = w.now ∧ e'.Traced key l policy []) ∨
      ∃ e, w.cache.find? key = some e ∧ e.Resumes w.now e' :=
    fun h => .inr ⟨e', h, .marked e'.pending⟩
  cases h with
  | tune f hb =>
    rw [World.cache_change, hb.find?] at he
    exact same he
  | touch => exact .inr (Cache.resumes_touch he)
  | mark => exact .inr (Cache.resumes_mark w.now he)
  | unmark => exact .inr (Cache.resumes_mark w.now he)
  | place j value policy =>
    rw [World.find?_tended, World.cache_placed] at he
    rcases Cache.find?_insert_eq_some.mp he with ⟨rfl, rfl⟩ | ⟨-, he⟩
    · refine .inl ⟨(w.change (.insert w.now key value policy)).line
        (.inserted w.cache.nextGeneration key value), ?_, policy, rfl, rfl, ?_, rfl⟩
      · rw [World.journal_tended, World.journal_placed]
        apply List.mem_append_left
        unfold World.placedLines
        cases w.cache.find? key <;> simp
      · exact (Cache.find?_insert ..).trans (if_pos rfl)
    · exact same he
  | takeOut => exact same (Cache.find?_takeOut_eq_some.mp he).2
  | empty =>
    rw [World.emptied_eq] at he
    cases he
  | close =>
    rw [World.emptied_eq] at he
    cases he
  | _ => exact same he

/-- Whatever is stored came in with a line of the journal and was only touched since. -/
def World.Traces (w : World ν η μ) : Prop :=
  ∀ key e, w.cache.find? key = some e → ∃ l ∈ w.journal, ∃ policy touches,
    e.Traced key l policy touches ∧ l.now ≤ w.now ∧ ∀ s ∈ touches, l.now ≤ s ∧ s ≤ w.now

theorem World.fresh_traces (t : Instant) (memory : μ) :
    (World.fresh settings hosting t memory : World ν η μ).Traces :=
  fun _ _ he => nomatch he

theorem Move.traces {level : Nat} {v v' : World ν η μ} (hm : Move level v v') (h : v.Traces) :
    v'.Traces := by
  intro key e he
  have later : ∀ {s : Instant}, s ≤ v.now → s ≤ v'.now := fun h => Int.le_trans h hm.now_le
  rcases hm.resumes he with ⟨l, hl, policy, hn, ht⟩ | ⟨e₀, he₀, hr⟩
  · refine ⟨l, hl, policy, [], ht, ?_, by simp⟩
    rw [hn]
    exact hm.now_le
  · obtain ⟨l, hl, policy, touches, ht, hn, hs⟩ := h key e₀ he₀
    refine ⟨l, hm.journal.subset hl, policy, ?_⟩
    rcases ht.resumes hr with ht | ht
    · exact ⟨touches, ht, later hn, fun s hmem => ⟨(hs s hmem).1, later (hs s hmem).2⟩⟩
    · refine ⟨touches ++ [v.now], ht, later hn, fun s hmem => ?_⟩
      rcases List.mem_append.mp hmem with hmem | hmem
      · exact ⟨(hs s hmem).1, later (hs s hmem).2⟩
      · rw [List.mem_singleton.mp hmem]
        exact ⟨hn, hm.now_le⟩

theorem Moves.traces {level : Nat} {v v' : World ν η μ} (hm : Moves level v v') (h : v.Traces) :
    v'.Traces := by
  induction hm with
  | refl => exact h
  | tail _ hm ih => exact hm.traces ih

theorem Reachable.traces (h : Reachable host settings hosting w) : w.Traces :=
  h.invariant World.fresh_traces Move.traces

/-- Deadlines are kept by whatever entry is made at an instant and touched at others: it lapses as its
policy says, and in the cache nothing else is ever stored. Every insertion that the journal tells of is
made when the host has given all it is asked for, at the instant the clock reads then; and what is
stored is one of these insertions, touched at the instants of its accesses, between turns as well as in
the middle of them. -/
theorem stored_entries_keep_time (host : Host ν η μ) (settings : Settings η) (hosting : Hosting) :
    (∀ created touches value g, Entry.KeepsTime ν η created touches value g) ∧
    (∀ w, Reachable host settings hosting w → w.Traces ∧
      ∀ l before, l :: before <:+ w.journal → l.Founded before) ∧
    ∀ t memory w, Moves 0 (World.fresh settings hosting t memory : World ν η μ) w → w.Traces :=
  ⟨fun _ _ _ _ => Entry.keepsTime .., fun _ h => ⟨h.traces, fun _ _ => h.founded⟩,
    fun _ _ _ h => h.traces (World.fresh_traces _ _)⟩

/-- A touch at an earlier instant moves the deadline back. -/
theorem touched_back_lapses_sooner :
    let made : Entry Nat String := .made .zero [⟨3000000, by decide, by decide⟩,
      ⟨1000000, by decide, by decide⟩] 7 (some (.sliding (.ofMillis 5) none)) 0
    made.expired (m := Id) (fun _ _ => false) ⟨5999999, by decide, by decide⟩ = false ∧
    made.expired (m := Id) (fun _ _ => false) ⟨6000000, by decide, by decide⟩ = true ∧
    ∀ l before, l :: before <:+ World.expiredRead.journal → l.Founded before := by
  intro made
  obtain ⟨keeps, founded, -⟩ := stored_entries_keep_time Host.reentrant .keeping .task
  have hmade := keeps .zero [⟨3000000, by decide, by decide⟩, ⟨1000000, by decide, by decide⟩] 7 0
  refine ⟨?_, ?_, (founded _ (.between expiredRead_between)).2⟩
  · obtain ⟨b, hb, hiff⟩ := hmade.timed (m := Id) (fun _ _ => false)
      ⟨5999999, by decide, by decide⟩ (.sliding (.ofMillis 5) none) rfl
    refine hb.trans (Bool.eq_false_iff.mpr (mt hiff.mp ?_))
    rintro ⟨u, hu, hle⟩
    have := Instant.le_def.mp hle
    simp [Span.ofMillis] at hu this
    omega
  · obtain ⟨b, hb, hiff⟩ := hmade.timed (m := Id) (fun _ _ => false)
      ⟨6000000, by decide, by decide⟩ (.sliding (.ofMillis 5) none) rfl
    exact hb.trans (hiff.mpr ⟨⟨6000000, by decide, by decide⟩, rfl, Int.le_refl _⟩)

end ExpiringCache
