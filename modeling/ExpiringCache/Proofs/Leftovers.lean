import Mathlib.Data.List.Perm.Basic
import ExpiringCache.Proofs.Crowds

/-!
# Slots that are left

A caller on its way out takes the key off the directory if it finds no references to the slot but
the directory's and its own. A caller that has checked and is not gone yet still refers to the slot,
and will not check again; if another one's check finds only such references then nobody takes the
key off, and the slot is left when all are gone. The next caller of the key goes in by that slot and
takes it off again, and no slot is left in any other way.
-/

namespace ExpiringCache

/-- The caller neither holds a slot nor waits for one, and is not about to give one up. -/
def Place.isAway : Place → Bool
  | outside => true
  | gone => true
  | _ => false

theorem Place.holds_of_isAway {p : Place} (h : p.isAway = true) (s : Nat) : p.holds s = 0 := by
  cases p <;> first | rfl | cases h

/-- Others refer to the slot, and all of them have checked it already. -/
def overtaken (s : Nat) (others : List (Key × Place)) : Bool :=
  0 < references s others && others.all fun v => !v.2.reliesOn s

theorem references_eq_zero_iff {s : Nat} {vs : List (Key × Place)} :
    references s vs = 0 ↔ ∀ v ∈ vs, v.2.holds s = 0 := by
  constructor
  · intro h v hv
    rcases Nat.eq_zero_or_pos (v.2.holds s) with hzero | hpos
    · exact hzero
    · have hrefs := references_pos hv hpos
      omega
  · intro h
    induction vs with
    | nil => rfl
    | cons v vs ih =>
      rw [references_cons, h v (List.mem_cons_self ..),
        ih fun u hu => h u (List.mem_cons_of_mem _ hu)]

theorem overtaken_eq_false {s : Nat} {others : List (Key × Place)}
    (h : overtaken s others = false) :
    references s others = 0 ∨ ∃ v ∈ others, v.2.reliesOn s = true := by
  rcases Nat.eq_zero_or_pos (references s others) with hzero | hpos
  · exact Or.inl hzero
  · exact Or.inr (by simpa [overtaken, hpos] using h)

/-- Whether the next step of the caller, if it checks the slot of this key, is overtaken. -/
def check? (key : Key) (v : Key × Place) (others : List (Key × Place)) : Option Bool :=
  match v.2 with
  | .unlocked s => if v.1 = key then some (overtaken s others) else none
  | _ => none

namespace Admission

variable {a a' : Admission} {key : Key} {p p' : Place}

/-- The next step of a caller; `none` while it has to wait, and when it is gone. -/
def pass? (a : Admission) (key : Key) : Place → Option (Admission × Place)
  | .outside => some ((a.enter key).1, .waiting (a.enter key).2)
  | .waiting slot => (a.lock? slot).map (·, .inside slot)
  | .inside slot => some (a.unlock slot, .unlocked slot)
  | .unlocked slot => some (a.retire key slot, .retired slot)
  | .retired slot => some (a.leave slot, .gone)
  | .gone => none

theorem pass?_eq_some_iff : a.pass? key p = some (a', p') ↔ Passage key a p a' p' := by
  constructor
  · intro h
    cases p with
    | outside => cases h; exact .enter a
    | waiting slot =>
      obtain ⟨locked, hlock, he⟩ := Option.map_eq_some_iff.mp h
      cases he
      exact .lock hlock
    | inside slot => cases h; exact .unlock a slot
    | unlocked slot => cases h; exact .retire a slot
    | retired slot => cases h; exact .leave a slot
    | gone => cases h
  · rintro (_ | h | _ | _ | _)
    · rfl
    · exact Option.map_eq_some_iff.mpr ⟨a', h, rfl⟩
    · rfl
    · rfl
    · rfl

theorem get?_directory_enter (a : Admission) (key k : Key) :
    (a.enter key).1.directory.get? k =
      if k = key then some (a.enter key).2 else a.directory.get? k := by
  unfold enter
  cases hd : a.directory.get? key with
  | some t =>
    show a.directory.get? k = _
    split
    · rename_i hk
      rw [hk, hd]
    · rfl
  | none => exact Table.get?_put ..

theorem directory_lock? {slot : Nat} (h : a.lock? slot = some a') : a'.directory = a.directory := by
  unfold lock? at h
  split at h
  · cases h
    rfl
  · cases h

/-- A check takes off the key it is made for, or nothing. -/
theorem get?_directory_retire (a : Admission) (key : Key) (slot : Nat) {k : Key} (hk : k ≠ key) :
    (a.retire key slot).directory.get? k = a.directory.get? k := by
  unfold retire
  split
  · split
    · exact (Table.get?_erase ..).trans (if_neg hk)
    · rfl
  · rfl

end Admission

/-- A slot that a caller refers to is listed for the caller's key or for none. -/
def Keyed (a : Admission) (vs : List (Key × Place)) : Prop :=
  ∀ v ∈ vs, ∀ s, 0 < v.2.holds s → ∀ k, a.directory.get? k = some s → k = v.1

namespace Keyed

open Admission

variable {a a' : Admission} {vs ws : List (Key × Place)} {key : Key} {p p' : Place}

theorem perm (h : Keyed a vs) (hp : vs.Perm ws) : Keyed a ws :=
  fun v hv => h v (hp.mem_iff.mpr hv)

theorem references_eq_zero (h : Keyed a vs) {s : Nat} (hd : a.directory.get? key = some s)
    (haway : ∀ v ∈ vs, v.1 = key → v.2.isAway = true) : references s vs = 0 := by
  refine references_eq_zero_iff.mpr fun v hv => ?_
  rcases Nat.eq_zero_or_pos (v.2.holds s) with hzero | hpos
  · exact hzero
  · exact Place.holds_of_isAway (haway v hv (h v hv s hpos key hd).symm) s

/-- Nothing is listed anew, and the caller refers to nothing new. -/
theorem narrow (h : Keyed a ((key, p) :: vs))
    (hdir : ∀ k s, a'.directory.get? k = some s → a.directory.get? k = some s)
    (hholds : ∀ s, 0 < p'.holds s → 0 < p.holds s) : Keyed a' ((key, p') :: vs) := by
  intro v hv s hs k hk
  rcases List.mem_cons.mp hv with rfl | hv
  · exact h (key, p) (List.mem_cons_self ..) s (hholds s hs) k (hdir k s hk)
  · exact h v (List.mem_cons_of_mem _ hv) s hs k (hdir k s hk)

theorem enter (h : Keyed a ((key, .outside) :: vs)) (ho : Orderly a ((key, .outside) :: vs)) :
    Keyed (a.enter key).1 ((key, .waiting (a.enter key).2) :: vs) := by
  intro v hv s hs k hk
  rw [get?_directory_enter] at hk
  rcases List.mem_cons.mp hv with rfl | hv
  · -- the caller's own slot, which no other key lists
    have he : (a.enter key).2 = s := by
      simp only [Place.holds] at hs
      split at hs
      · assumption
      · cases hs
    have hentered := ho.enter
    refine hentered.distinct k key s ?_ ?_
    · rw [get?_directory_enter]
      exact hk
    · rw [get?_directory_enter, if_pos rfl, he]
  · by_cases hkey : k = key
    · rw [if_pos hkey] at hk
      have hs' := references_pos hv hs
      cases hd : a.directory.get? key with
      | some t =>
        have he : (a.enter key).2 = t := by simp [Admission.enter, hd]
        rw [he] at hk
        exact h v (List.mem_cons_of_mem _ hv) s hs k (hkey ▸ hd.trans hk)
      | none =>
        -- a new slot, which nobody refers to yet
        have he : (a.enter key).2 = a.fresh := by simp [Admission.enter, hd]
        have hnobody := (ho.fresh a.fresh (Nat.le_refl _)).2
        rw [references_cons, he.symm.trans (Option.some.inj hk)] at hnobody
        omega
    · rw [if_neg hkey] at hk
      exact h v (List.mem_cons_of_mem _ hv) s hs k hk

theorem passage (h : Keyed a ((key, p) :: vs)) (ho : Orderly a ((key, p) :: vs))
    (hp : Passage key a p a' p') : Keyed a' ((key, p') :: vs) := by
  cases hp with
  | enter => exact h.enter ho
  | lock hl =>
    refine h.narrow (fun k s => by rw [directory_lock? hl]; exact id) ?_
    intro s hs
    simp only [Place.holds] at hs ⊢
    split at hs <;> simp_all
  | unlock slot =>
    refine h.narrow (fun _ _ => id) ?_
    intro s hs
    simp only [Place.holds] at hs ⊢
    split at hs <;> simp_all
  | retire slot =>
    refine h.narrow ?_ (fun _ => id)
    intro k s hk
    rw [ho.retire_eq] at hk
    split at hk
    · have hk : (a.directory.erase key).get? k = some s := hk
      rw [Table.get?_erase] at hk
      split at hk
      · cases hk
      · exact hk
    · exact hk
  | leave slot =>
    refine h.narrow (fun k s => by rw [Admission.leave, directory_unreference]; exact id) ?_
    intro s hs
    cases hs

end Keyed

/-- A listed key has a caller that is going to check its slot, unless the last check of the key was
overtaken: then it is listed still. -/
structure Attended (key : Key) (lapsed : Bool) (a : Admission) (vs : List (Key × Place)) : Prop where
  listed : lapsed = true → ∃ s, a.directory.get? key = some s
  relied : lapsed = false → ∀ s, a.directory.get? key = some s → ∃ v ∈ vs, v.2.reliesOn s = true

namespace Attended

open Admission

variable {a a' : Admission} {vs ws : List (Key × Place)} {key k : Key} {p p' : Place}
  {lapsed : Bool}

theorem perm (h : Attended key lapsed a vs) (hp : vs.Perm ws) : Attended key lapsed a ws := by
  refine ⟨h.listed, ?_⟩
  intro hl s hs
  obtain ⟨v, hv, hrelies⟩ := h.relied hl s hs
  exact ⟨v, hp.mem_iff.mp hv, hrelies⟩

/-- The key stays where it is, and so does the caller as far as its slot is concerned. -/
theorem same (h : Attended key lapsed a ((k, p) :: vs))
    (hdir : a'.directory.get? key = a.directory.get? key)
    (hrelies : ∀ s, a.directory.get? key = some s → p.reliesOn s = true → p'.reliesOn s = true) :
    Attended key lapsed a' ((k, p') :: vs) := by
  refine ⟨by rw [hdir]; exact h.listed, ?_⟩
  intro hl s hs
  rw [hdir] at hs
  obtain ⟨v, hv, hv'⟩ := h.relied hl s hs
  rcases List.mem_cons.mp hv with rfl | hv
  · exact ⟨(k, p'), List.mem_cons_self .., hrelies s hs hv'⟩
  · exact ⟨v, List.mem_cons_of_mem _ hv, hv'⟩

theorem enter (h : Attended key lapsed a ((k, .outside) :: vs)) :
    Attended key lapsed (a.enter k).1 ((k, .waiting (a.enter k).2) :: vs) := by
  by_cases hk : key = k
  · subst hk
    have hd : (a.enter key).1.directory.get? key = some (a.enter key).2 := by
      rw [get?_directory_enter, if_pos rfl]
    refine ⟨fun _ => ⟨_, hd⟩, ?_⟩
    intro _ s hs
    rw [hd] at hs
    exact ⟨_, List.mem_cons_self .., decide_eq_true (Option.some.inj hs)⟩
  · refine h.same ?_ nofun
    rw [get?_directory_enter, if_neg hk]

/-- A check of the key decides about it anew. -/
theorem check {t : Nat} (ho : Orderly a ((key, .unlocked t) :: vs)) :
    Attended key (overtaken t vs) (a.retire key t) ((key, .retired t) :: vs) := by
  have hd : a.directory.get? key = some t :=
    ho.listed (key, .unlocked t) (List.mem_cons_self ..) t (by simp [Place.reliesOn])
  rw [ho.retire_eq]
  by_cases hlast : references t vs = 0
  · have hnone : (a.directory.erase key).get? key = none := by
      rw [Table.get?_erase, if_pos rfl]
    rw [if_pos hlast]
    refine ⟨?_, ?_⟩
    · intro hl
      simp [overtaken, hlast] at hl
    · intro _ s hs
      cases hnone.symm.trans hs
  · rw [if_neg hlast]
    refine ⟨fun _ => ⟨t, hd⟩, ?_⟩
    intro hl s hs
    cases hd.symm.trans hs
    obtain ⟨v, hv, hrelies⟩ := (overtaken_eq_false hl).resolve_left hlast
    exact ⟨v, List.mem_cons_of_mem _ hv, hrelies⟩

theorem passage (h : Attended key lapsed a ((k, p) :: vs)) (ho : Orderly a ((k, p) :: vs))
    (hp : Passage k a p a' p') :
    Attended key ((check? key (k, p) vs).getD lapsed) a' ((k, p') :: vs) := by
  cases hp with
  | enter => exact h.enter
  | lock hl => exact h.same (by rw [directory_lock? hl]) fun _ _ => id
  | unlock slot => exact h.same rfl fun _ _ => id
  | retire slot =>
    by_cases hk : k = key
    · subst hk
      simpa [check?] using check ho
    · have hsame : Attended key lapsed (a.retire k slot) ((k, .retired slot) :: vs) := by
        refine h.same (get?_directory_retire a k slot (Ne.symm hk)) ?_
        -- the key that lists the caller's slot is the caller's
        intro s hs hrelies
        have hown := ho.listed (k, .unlocked slot) (List.mem_cons_self ..) s hrelies
        exact absurd (ho.distinct k key s hown hs) hk
      simpa [check?, hk] using hsame
  | leave slot => exact h.same (by rw [Admission.leave, directory_unreference]) nofun

end Attended

/-! ## Schedules -/

/-- Callers on their way, each for one visit, and what they go through. -/
structure Lobby where
  admission : Admission
  callers : List (Key × Place)

namespace Lobby

open Admission

def opened (keys : List Key) : Lobby := ⟨.empty, keys.map (·, .outside)⟩

def others (l : Lobby) (i : Nat) : List (Key × Place) := l.callers.eraseIdx i

/-- The caller of this number takes its next step. -/
def advance (l : Lobby) (i : Nat) : Option Lobby :=
  match l.callers[i]? with
  | some (key, p) => (l.admission.pass? key p).map fun r => ⟨r.1, l.callers.set i (key, r.2)⟩
  | none => none

/-- A schedule says whose turn it is; the turn of a caller that has to wait may not come. -/
def run : Lobby → List Nat → Option Lobby
  | l, [] => some l
  | l, i :: schedule => (l.advance i).bind (·.run schedule)

/-- The checks of the key along a schedule: which of them were overtaken. -/
def checks (key : Key) : Lobby → List Nat → List Bool
  | _, [] => []
  | l, i :: schedule =>
    (l.callers[i]?.bind fun v => check? key v (l.others i)).toList ++
      ((l.advance i).map (·.checks key schedule)).getD []

/-- Nobody holds the key, waits for it or is about to give it up. -/
def Deserted (l : Lobby) (key : Key) : Prop := ∀ v ∈ l.callers, v.1 = key → v.2.isAway = true

instance (l : Lobby) (key : Key) : Decidable (l.Deserted key) :=
  inferInstanceAs (Decidable (∀ v ∈ l.callers, v.1 = key → v.2.isAway = true))

variable {l l' : Lobby} {key : Key} {i : Nat} {schedule : List Nat} {keys : List Key}
  {lapsed : Bool}

theorem advance_eq_some (h : l.advance i = some l') : ∃ k p p',
    l.callers[i]? = some (k, p) ∧ Passage k l.admission p l'.admission p' ∧
      l.callers.Perm ((k, p) :: l.others i) ∧ l'.callers.Perm ((k, p') :: l.others i) := by
  unfold advance at h
  split at h
  · rename_i k p hi
    obtain ⟨⟨a, p'⟩, hpass, rfl⟩ := Option.map_eq_some_iff.mp h
    obtain ⟨hlt, hget⟩ := List.getElem?_eq_some_iff.mp hi
    have hfrom := List.getElem_cons_eraseIdx_perm hlt
    rw [hget] at hfrom
    exact ⟨k, p, p', hi, pass?_eq_some_iff.mp hpass, hfrom.symm,
      List.set_perm_cons_eraseIdx hlt (k, p')⟩
  · cases h

/-- What holds of the callers of every schedule. -/
structure Standing (key : Key) (lapsed : Bool) (l : Lobby) : Prop where
  orderly : Orderly l.admission l.callers
  keyed : Keyed l.admission l.callers
  attended : Attended key lapsed l.admission l.callers

namespace Standing

theorem opened (key : Key) (keys : List Key) : Standing key false (.opened keys) := by
  refine ⟨(Orderly.of_held held_empty).outside keys, ?_, ?_, ?_⟩
  · intro v _ s _ k hk
    cases hk
  · intro hl
    cases hl
  · intro _ s hs
    cases hs

theorem advance (h : Standing key lapsed l) (ha : l.advance i = some l') :
    Standing key ((l.callers[i]?.bind fun v => check? key v (l.others i)).getD lapsed) l' := by
  obtain ⟨k, p, p', hi, hpass, hfrom, hto⟩ := advance_eq_some ha
  have horderly := h.orderly.perm hfrom
  rw [hi, Option.bind_some]
  exact ⟨(horderly.passage hpass).perm hto.symm,
    ((h.keyed.perm hfrom).passage horderly hpass).perm hto.symm,
    ((h.attended.perm hfrom).passage horderly hpass).perm hto.symm⟩

theorem run (h : Standing key lapsed l) (hr : l.run schedule = some l') :
    Standing key ((l.checks key schedule).getLast?.getD lapsed) l' := by
  induction schedule generalizing l lapsed with
  | nil =>
    cases hr
    exact h
  | cons i schedule ih =>
    obtain ⟨m, ha, hr⟩ := Option.bind_eq_some_iff.mp hr
    have hlast := ih (h.advance ha) hr
    unfold checks
    rw [ha, Option.map_some, Option.getD_some, List.getLast?_append]
    cases hrest : (m.checks key schedule).getLast? with
    | some last =>
      rw [hrest] at hlast
      exact hlast
    | none =>
      rw [hrest] at hlast
      cases hnow : l.callers[i]?.bind fun v => check? key v (l.others i) with
      | some now =>
        rw [hnow] at hlast
        exact hlast
      | none =>
        rw [hnow] at hlast
        exact hlast

theorem listed_iff (h : Standing key lapsed l) (hd : l.Deserted key) :
    (∃ s, l.admission.directory.get? key = some s) ↔ lapsed = true := by
  constructor
  · rintro ⟨s, hs⟩
    refine Bool.of_not_eq_false fun hl => ?_
    obtain ⟨v, hv, hrelies⟩ := h.attended.relied hl s hs
    have hkey := h.orderly.distinct _ _ s (h.orderly.listed v hv s hrelies) hs
    have hpos := Place.holds_pos hrelies
    rw [Place.holds_of_isAway (hd v hv hkey)] at hpos
    cases hpos
  · exact h.attended.listed

/-- Only the directory refers to a slot that is left. -/
theorem slot_of_deserted (h : Standing key lapsed l) (hd : l.Deserted key) {s : Nat}
    (hs : l.admission.directory.get? key = some s) :
    l.admission.slots.get? s = some ⟨1, false⟩ := by
  have hrefs := h.keyed.references_eq_zero hs hd
  have hoccs : occupants s l.callers = 0 := by
    refine List.countP_eq_zero.mpr ?_
    intro v hv hin
    have hin : v.2 = .inside s := of_decide_eq_true hin
    have hpos := references_pos hv (s := s) (by simp [hin, Place.holds])
    omega
  rw [h.orderly.slots s, lists_iff.mpr ⟨key, hs⟩, hrefs, hoccs]
  rfl

/-- The next caller of the key is let in, and takes off on its way out what was left. -/
theorem cleared (h : Standing key lapsed l) (hd : l.Deserted key) :
    ∃ acquired slot, l.admission.acquire? key = some (acquired, slot) ∧
      (acquired.release key slot).directory.get? key = none := by
  have hcome := h.orderly.come key
  have hkeyed : Keyed l.admission ((key, .outside) :: l.callers) := by
    intro v hv s hs
    rcases List.mem_cons.mp hv with rfl | hv
    · cases hs
    · exact h.keyed v hv s hs
  have hadmits : l.admission.admits key = true := by
    refine h.orderly.admits ?_
    intro v hv hk
    have haway := hd v hv hk
    cases hp : v.2 <;> first | rfl | (rw [hp] at haway; cases haway)
  obtain ⟨⟨acquired, slot⟩, hacquire⟩ := Option.isSome_iff_exists.mp hadmits
  refine ⟨acquired, slot, hacquire, ?_⟩
  obtain ⟨locked, hlock, he⟩ := Option.map_eq_some_iff.mp hacquire
  cases he
  have hunlocked := (hcome.enter.lock hlock).unlock
  have hlist : (l.admission.enter key).1.directory.get? key = some (l.admission.enter key).2 := by
    rw [get?_directory_enter, if_pos rfl]
  have hlast : references (l.admission.enter key).2 l.callers = 0 := by
    have hentered := hkeyed.enter hcome
    exact Keyed.references_eq_zero (fun v hv => hentered v (List.mem_cons_of_mem _ hv)) hlist hd
  unfold release leave
  rw [directory_unreference, hunlocked.retire_eq, if_pos hlast]
  exact (Table.get?_erase ..).trans (if_pos rfl)

end Standing

/-- Slots do not leak but by checks that are overtaken. However the steps of any callers are mixed,
when nobody holds a key, waits for it or is about to give it up, it is listed exactly if the last
check of it found the slot referred to by other callers that had all checked already. Only the
directory refers to the slot then, and the next caller of the key is let in and takes it off. -/
theorem slots_are_left_by_overtaken_checks (h : (opened keys).run schedule = some l)
    (hd : l.Deserted key) :
    ((∃ s, l.admission.directory.get? key = some s) ↔
      ((opened keys).checks key schedule).getLast? = some true) ∧
    (∀ s, l.admission.directory.get? key = some s →
      l.admission.slots.get? s = some ⟨1, false⟩) ∧
    ∃ acquired slot, l.admission.acquire? key = some (acquired, slot) ∧
      (acquired.release key slot).directory.get? key = none := by
  have hstanding := (Standing.opened key keys).run h
  refine ⟨?_, fun s => hstanding.slot_of_deserted hd, hstanding.cleared hd⟩
  rw [hstanding.listed_iff hd]
  cases ((opened keys).checks key schedule).getLast? <;> simp

/-- The first caller is gone before the one that waited for it checks. -/
theorem queue_leaves_no_slot : ∃ l,
    (opened ["k", "k"]).run [0, 0, 1, 0, 0, 0, 1, 1, 1, 1] = some l ∧ l.Deserted "k" ∧
      ¬ ∃ s, l.admission.directory.get? "k" = some s := by
  refine ⟨_, rfl, by decide, fun hleft => ?_⟩
  have hlast := (slots_are_left_by_overtaken_checks
    (show (opened ["k", "k"]).run [0, 0, 1, 0, 0, 0, 1, 1, 1, 1] = some _ from rfl)
    (by decide)).1.mp hleft
  revert hlast
  decide

/-- The second caller checks between the first one's check and its leaving: each finds the other's
reference. -/
theorem crossed_releases_leave_a_slot : ∃ l,
    (opened ["k", "k"]).run [0, 0, 1, 0, 0, 1, 1, 1, 0, 1] = some l ∧
      l.callers = [("k", .gone), ("k", .gone)] ∧ l.Deserted "k" ∧
      l.admission.directory.get? "k" = some 0 :=
  ⟨_, rfl, rfl, by decide, by decide⟩

end Lobby

end ExpiringCache
