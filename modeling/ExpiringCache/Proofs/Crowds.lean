import ExpiringCache.Proofs.Admission
import Mathlib.Algebra.GroupWithZero.Nat

/-!
# Callers in between each other

Any number of callers are on their way in or out, and each step of one of them may be followed by a
step of any other. The references that a slot counts are those of the directory and of the callers
then, and a slot is taken off the directory by nobody while another caller is before its own check
of the references. A slot may be made for a key anew after that, and still there is one caller
inside at most.
-/

namespace ExpiringCache

/-- Where a caller is on its way. -/
inductive Place where
  | outside
  | waiting (slot : Nat)
  | inside (slot : Nat)
  | unlocked (slot : Nat)
  | retired (slot : Nat)
  | gone
deriving DecidableEq

namespace Place

/-- The references to a slot that a caller has here. -/
def holds (s : Nat) : Place → Nat
  | waiting t => if t = s then 1 else 0
  | inside t => if t = s then 2 else 0
  | unlocked t => if t = s then 1 else 0
  | retired t => if t = s then 1 else 0
  | _ => 0

/-- The caller goes by this slot and has not checked yet whether it is the last. -/
def reliesOn (s : Nat) : Place → Bool
  | waiting t => t = s
  | inside t => t = s
  | unlocked t => t = s
  | _ => false

def isInside : Place → Bool
  | inside _ => true
  | _ => false

theorem holds_pos {p : Place} {s : Nat} (h : p.reliesOn s = true) : 0 < p.holds s := by
  cases p <;> simp_all [reliesOn, holds]

end Place

def references (s : Nat) (vs : List (Key × Place)) : Nat := (vs.map fun v => v.2.holds s).sum

def occupants (s : Nat) (vs : List (Key × Place)) : Nat := vs.countP fun v => v.2 = .inside s

theorem references_cons (s : Nat) (v : Key × Place) (vs : List (Key × Place)) :
    references s (v :: vs) = v.2.holds s + references s vs := by
  simp [references]

theorem occupants_cons (s : Nat) (v : Key × Place) (vs : List (Key × Place)) :
    occupants s (v :: vs) = occupants s vs + if v.2 = .inside s then 1 else 0 := by
  simp [occupants, List.countP_cons]

theorem references_pos {s : Nat} {v : Key × Place} {vs : List (Key × Place)} (hv : v ∈ vs)
    (h : 0 < v.2.holds s) : 0 < references s vs := by
  induction vs with
  | nil => cases hv
  | cons u vs ih =>
    rw [references_cons]
    rcases List.mem_cons.mp hv with rfl | hv
    · omega
    · have hrest := ih hv
      omega

/-- What a slot is that is listed or not and that callers refer to this often. -/
def tally (listed : Bool) (references occupants : Nat) : Option Slot :=
  if listed.toNat + references = 0 then none
  else some ⟨listed.toNat + references, decide (0 < occupants)⟩

namespace Admission

def lists (a : Admission) (s : Nat) : Bool := a.directory.rows.any fun r => r.2 = s

theorem lists_iff {a : Admission} {s : Nat} :
    a.lists s = true ↔ ∃ key, a.directory.get? key = some s := by
  unfold lists
  rw [List.any_eq_true]
  constructor
  · rintro ⟨⟨key, t⟩, hr, ht⟩
    exact ⟨key, Table.get?_eq_some_iff.mpr (of_decide_eq_true ht ▸ hr)⟩
  · rintro ⟨key, h⟩
    exact ⟨(key, s), Table.get?_eq_some_iff.mp h, decide_eq_true rfl⟩

theorem lists_put {a a' : Admission} {key : Key} {t : Nat} (hd : a.directory.get? key = none)
    (h : a'.directory = a.directory.put key t) (s : Nat) :
    a'.lists s = (a.lists s || decide (t = s)) := by
  rw [Bool.eq_iff_iff, lists_iff, Bool.or_eq_true, lists_iff, decide_eq_true_eq, h]
  constructor
  · rintro ⟨k, hk⟩
    rw [Table.get?_put] at hk
    split at hk
    · exact Or.inr (Option.some.inj hk)
    · exact Or.inl ⟨k, hk⟩
  · rintro (⟨k, hk⟩ | rfl)
    · have hne : k ≠ key := by
        intro he
        rw [he, hd] at hk
        cases hk
      exact ⟨k, by rw [Table.get?_put, if_neg hne]; exact hk⟩
    · exact ⟨key, by rw [Table.get?_put, if_pos rfl]⟩

theorem lists_erase {a a' : Admission} {key : Key} {t : Nat} (hd : a.directory.get? key = some t)
    (hdistinct : ∀ k, a.directory.get? k = some t → k = key)
    (h : a'.directory = a.directory.erase key) (s : Nat) :
    a'.lists s = (a.lists s && decide (s ≠ t)) := by
  rw [Bool.eq_iff_iff, lists_iff, Bool.and_eq_true, lists_iff, decide_eq_true_eq, h]
  constructor
  · rintro ⟨k, hk⟩
    rw [Table.get?_erase] at hk
    split at hk
    · cases hk
    · rename_i hne
      refine ⟨⟨k, hk⟩, ?_⟩
      rintro rfl
      exact hne (hdistinct k hk)
  · rintro ⟨⟨k, hk⟩, hne⟩
    have hkey : k ≠ key := by
      rintro rfl
      rw [hd] at hk
      exact hne (Option.some.inj hk).symm
    exact ⟨k, by rw [Table.get?_erase, if_neg hkey]; exact hk⟩

inductive Passage (key : Key) : Admission → Place → Admission → Place → Prop
  | enter (a : Admission) : Passage key a .outside (a.enter key).1 (.waiting (a.enter key).2)
  | lock {a a' : Admission} {slot : Nat} (h : a.lock? slot = some a') :
      Passage key a (.waiting slot) a' (.inside slot)
  | unlock (a : Admission) (slot : Nat) :
      Passage key a (.inside slot) (a.unlock slot) (.unlocked slot)
  | retire (a : Admission) (slot : Nat) :
      Passage key a (.unlocked slot) (a.retire key slot) (.retired slot)
  | leave (a : Admission) (slot : Nat) : Passage key a (.retired slot) (a.leave slot) .gone

end Admission

/-- The slots are what the directory and the callers make of them. -/
structure Orderly (a : Admission) (vs : List (Key × Place)) : Prop where
  slots : ∀ s, a.slots.get? s = tally (a.lists s) (references s vs) (occupants s vs)
  alone : ∀ s, occupants s vs ≤ 1
  listed : ∀ v ∈ vs, ∀ s, v.2.reliesOn s = true → a.directory.get? v.1 = some s
  distinct : ∀ k j s, a.directory.get? k = some s → a.directory.get? j = some s → k = j
  fresh : ∀ s, a.fresh ≤ s → a.lists s = false ∧ references s vs = 0

namespace Orderly

open Admission

variable {a a' : Admission} {vs ws : List (Key × Place)} {key : Key} {p p' : Place}

theorem perm (h : Orderly a vs) (hp : vs.Perm ws) : Orderly a ws := by
  have hrefs : ∀ s, references s ws = references s vs :=
    fun s => ((hp.map fun v : Key × Place => v.2.holds s).sum_nat).symm
  have hoccs : ∀ s, occupants s ws = occupants s vs := fun s => (hp.countP_eq _).symm
  refine ⟨?_, ?_, ?_, h.distinct, ?_⟩
  · intro s
    rw [hrefs, hoccs]
    exact h.slots s
  · intro s
    rw [hoccs]
    exact h.alone s
  · intro v hv
    exact h.listed v (hp.mem_iff.mpr hv)
  · intro s hs
    rw [hrefs]
    exact h.fresh s hs

theorem slot_of_holds (h : Orderly a vs) {v : Key × Place} (hv : v ∈ vs) {s : Nat}
    (hs : 0 < v.2.holds s) : a.slots.get? s =
      some ⟨(a.lists s).toNat + references s vs, decide (0 < occupants s vs)⟩ := by
  have hpos := references_pos hv hs
  rw [h.slots s, tally, if_neg (by omega)]

theorem lt_fresh (h : Orderly a vs) {s : Nat} (hs : a.lists s = true) : s < a.fresh := by
  rcases Nat.lt_or_ge s a.fresh with hlt | hge
  · exact hlt
  · rw [(h.fresh s hge).1] at hs
    cases hs

/-- A caller without references does not matter. -/
theorem idle_iff (hp : ∀ s, p.holds s = 0) : Orderly a ((key, p) :: vs) ↔ Orderly a vs := by
  have hrefs : ∀ s, references s ((key, p) :: vs) = references s vs := by
    intro s
    rw [references_cons, hp s, Nat.zero_add]
  have hoccs : ∀ s, occupants s ((key, p) :: vs) = occupants s vs := by
    intro s
    have hne : p ≠ .inside s := by
      rintro rfl
      simpa [Place.holds] using hp s
    rw [occupants_cons, if_neg hne, Nat.add_zero]
  constructor
  · rintro ⟨hslots, halone, hlisted, hdistinct, hfresh⟩
    simp only [hrefs, hoccs] at hslots halone hfresh
    exact ⟨hslots, halone, fun v hv => hlisted v (List.mem_cons_of_mem _ hv), hdistinct, hfresh⟩
  · rintro ⟨hslots, halone, hlisted, hdistinct, hfresh⟩
    refine ⟨?_, ?_, ?_, hdistinct, ?_⟩
    · simpa only [hrefs, hoccs] using hslots
    · simpa only [hoccs] using halone
    · intro v hv s hs
      rcases List.mem_cons.mp hv with rfl | hv
      · have hpos := Place.holds_pos hs
        rw [hp s] at hpos
        cases hpos
      · exact hlisted v hv s hs
    · simpa only [hrefs] using hfresh

theorem refer {t : Nat} (h : Orderly a vs) (hd : a.directory.get? key = some t) :
    Orderly (a.reference t) ((key, .waiting t) :: vs) := by
  have hlt : a.lists t = true := lists_iff.mpr ⟨key, hd⟩
  refine ⟨?_, ?_, ?_, h.distinct, ?_⟩
  · intro s
    show (a.slots.modify t _).get? s = tally (a.lists s) _ _
    rw [Table.get?_modify, references_cons, occupants_cons]
    by_cases hs : s = t
    · subst hs
      rw [if_pos rfl, h.slots s, hlt]
      simp [tally, Place.holds]
      omega
    · rw [if_neg hs, h.slots s]
      simp [Place.holds, Ne.symm hs]
  · intro s
    simpa [occupants_cons] using h.alone s
  · intro v hv s hs
    rcases List.mem_cons.mp hv with rfl | hv
    · simp only [Place.reliesOn, decide_eq_true_eq] at hs
      subst hs
      exact hd
    · exact h.listed v hv s hs
  · intro s hs
    have hs : a.fresh ≤ s := hs
    have hne : t ≠ s := by
      have hbelow := h.lt_fresh hlt
      omega
    refine ⟨(h.fresh s hs).1, ?_⟩
    rw [references_cons, (h.fresh s hs).2]
    simp [Place.holds, hne]

/-- A new slot is nobody's but the caller's who had it made. -/
theorem establish (h : Orderly a vs) (hd : a.directory.get? key = none) :
    Orderly ⟨a.directory.put key a.fresh, a.slots.put a.fresh ⟨2, false⟩, a.fresh + 1⟩
      ((key, .waiting a.fresh) :: vs) := by
  have hnew := h.fresh a.fresh (Nat.le_refl _)
  have hold : ∀ k, a.directory.get? k ≠ some a.fresh := by
    intro k hk
    have hl := lists_iff.mpr ⟨k, hk⟩
    rw [hnew.1] at hl
    cases hl
  have hdir : ∀ k, (a.directory.put key a.fresh).get? k =
      if k = key then some a.fresh else a.directory.get? k := fun k => Table.get?_put ..
  refine ⟨?_, ?_, ?_, ?_, ?_⟩
  · intro s
    rw [lists_put hd rfl, references_cons, occupants_cons]
    show (a.slots.put a.fresh _).get? s = _
    rw [Table.get?_put]
    by_cases hs : s = a.fresh
    · subst hs
      have hnobody : occupants a.fresh vs = 0 := by
        refine List.countP_eq_zero.mpr ?_
        intro v hv hin
        have hpos := references_pos (s := a.fresh) hv (by simp_all [Place.holds])
        omega
      simp [tally, Place.holds, hnew.1, hnew.2, hnobody]
    · rw [if_neg hs, h.slots s]
      simp [Place.holds, Ne.symm hs]
  · intro s
    simpa [occupants_cons] using h.alone s
  · intro v hv s hs
    show (a.directory.put key a.fresh).get? v.1 = some s
    rw [hdir]
    rcases List.mem_cons.mp hv with rfl | hv
    · simp only [Place.reliesOn, decide_eq_true_eq] at hs
      rw [if_pos rfl, hs]
    · have hv' := h.listed v hv s hs
      have hne : v.1 ≠ key := by
        intro he
        rw [he, hd] at hv'
        cases hv'
      rw [if_neg hne]
      exact hv'
  · intro k j s hk hj
    change (a.directory.put key a.fresh).get? k = some s at hk
    change (a.directory.put key a.fresh).get? j = some s at hj
    rw [hdir] at hk hj
    split at hk <;> split at hj
    · simp_all
    · cases hk
      exact (hold j hj).elim
    · cases hj
      exact (hold k hk).elim
    · exact h.distinct k j s hk hj
  · intro s hs
    have hs : a.fresh + 1 ≤ s := hs
    have hlater := h.fresh s (by omega)
    rw [lists_put hd rfl, references_cons, hlater.1, hlater.2]
    have hne : a.fresh ≠ s := by omega
    simp [Place.holds, hne]

theorem enter (h : Orderly a ((key, .outside) :: vs)) :
    Orderly (a.enter key).1 ((key, .waiting (a.enter key).2) :: vs) := by
  have h := (idle_iff fun _ => rfl).mp h
  unfold Admission.enter
  cases hd : a.directory.get? key with
  | some t => exact h.refer hd
  | none => exact h.establish hd

/-- A step at the slot `t` only, which leaves the directory as it is. -/
theorem move {t : Nat} (h : Orderly a ((key, p) :: vs)) (hpos : 0 < p.holds t)
    (hp : ∀ s, s ≠ t → p.holds s = 0 ∧ p ≠ .inside s)
    (hp' : ∀ s, s ≠ t → p'.holds s = 0 ∧ p' ≠ .inside s)
    (hrelies : ∀ s, p'.reliesOn s = true → p.reliesOn s = true)
    (hdir : a'.directory = a.directory) (hfresh : a'.fresh = a.fresh)
    (helse : ∀ s, s ≠ t → a'.slots.get? s = a.slots.get? s)
    (hhere : a'.slots.get? t = tally (a.lists t) (p'.holds t + references t vs)
      (occupants t vs + if p' = .inside t then 1 else 0))
    (halone : occupants t vs + (if p' = .inside t then 1 else 0) ≤ 1) :
    Orderly a' ((key, p') :: vs) := by
  have hlists : ∀ s, a'.lists s = a.lists s := by
    intro s
    unfold lists
    rw [hdir]
  have hlt : t < a.fresh := by
    rcases Nat.lt_or_ge t a.fresh with hlt | hge
    · exact hlt
    · have hzero := (h.fresh t hge).2
      rw [references_cons] at hzero
      have hzero : p.holds t + references t vs = 0 := hzero
      omega
  refine ⟨?_, ?_, ?_, ?_, ?_⟩
  · intro s
    rw [hlists, references_cons, occupants_cons]
    by_cases hs : s = t
    · subst hs
      exact hhere
    · rw [helse s hs, h.slots s, references_cons, occupants_cons]
      simp [(hp s hs).1, (hp s hs).2, (hp' s hs).1, (hp' s hs).2]
  · intro s
    rw [occupants_cons]
    by_cases hs : s = t
    · subst hs
      exact halone
    · have hold := h.alone s
      rw [occupants_cons] at hold
      simp only [(hp s hs).2, (hp' s hs).2, if_false] at hold ⊢
      exact hold
  · intro v hv s hs
    rw [hdir]
    rcases List.mem_cons.mp hv with rfl | hv
    · exact h.listed (key, p) (List.mem_cons_self ..) s (hrelies s hs)
    · exact h.listed v (List.mem_cons_of_mem _ hv) s hs
  · rw [hdir]
    exact h.distinct
  · intro s hs
    rw [hfresh] at hs
    have hne : s ≠ t := by omega
    have hold := h.fresh s hs
    rw [references_cons] at hold ⊢
    rw [hlists, (hp' s hne).1]
    exact ⟨hold.1, by omega⟩

theorem lock {t : Nat} (h : Orderly a ((key, .waiting t) :: vs)) (hl : a.lock? t = some a') :
    Orderly a' ((key, .inside t) :: vs) := by
  have hslot := h.slots t
  rw [references_cons, occupants_cons] at hslot
  simp only [Place.holds, if_true, reduceCtorEq, if_false, Nat.add_zero] at hslot
  rw [tally, if_neg (by omega)] at hslot
  unfold lock? at hl
  rw [hslot] at hl
  simp only [Option.any_some, Option.ite_none_right_eq_some, Option.some.injEq] at hl
  obtain ⟨hfree, rfl⟩ := hl
  have hnobody : occupants t vs = 0 := by simpa using hfree
  refine h.move (t := t) (by simp [Place.holds]) ?_ ?_ ?_ rfl rfl ?_ ?_ ?_
  · intro s hs
    simp [Place.holds, Ne.symm hs]
  · intro s hs
    simp [Place.holds, Ne.symm hs]
  · intro s hs
    exact hs
  · intro s hs
    rw [Table.get?_modify, if_neg hs]
  · rw [Table.get?_modify, if_pos rfl, hslot, hnobody]
    simp [tally, Place.holds]
    omega
  · simp [hnobody]

theorem unlock {t : Nat} (h : Orderly a ((key, .inside t) :: vs)) :
    Orderly (a.unlock t) ((key, .unlocked t) :: vs) := by
  have hslot := h.slots t
  have halone := h.alone t
  rw [references_cons, occupants_cons] at hslot
  rw [occupants_cons] at halone
  simp only [Place.holds, if_true] at hslot halone
  rw [tally, if_neg (by omega)] at hslot
  have hnobody : occupants t vs = 0 := by omega
  refine h.move (t := t) (by simp [Place.holds]) ?_ ?_ ?_ rfl rfl ?_ ?_ ?_
  · intro s hs
    simp [Place.holds, Ne.symm hs]
  · intro s hs
    simp [Place.holds, Ne.symm hs]
  · intro s hs
    exact hs
  · intro s hs
    exact (Table.get?_modify ..).trans (if_neg hs)
  · refine (Table.get?_modify ..).trans ?_
    rw [if_pos rfl, hslot, hnobody]
    simp [tally, Place.holds]
    omega
  · simp [hnobody]

theorem slots_unreference {t references : Nat} {locked : Bool}
    (h : a.slots.get? t = some ⟨references, locked⟩) : (a.unreference t).slots.get? t =
      if references ≤ 1 then none else some ⟨references - 1, locked⟩ := by
  unfold unreference
  rw [h]
  by_cases hr : references ≤ 1
  · simp [hr, Table.get?_erase]
  · simp [hr, Table.get?_modify, h]

theorem leave {t : Nat} (h : Orderly a ((key, .retired t) :: vs)) :
    Orderly (a.leave t) ((key, .gone) :: vs) := by
  have hslot := h.slots t
  have halone := h.alone t
  rw [references_cons, occupants_cons] at hslot
  rw [occupants_cons] at halone
  simp only [Place.holds, if_true, reduceCtorEq, if_false, Nat.add_zero] at hslot halone
  rw [tally, if_neg (by omega)] at hslot
  refine h.move (t := t) (by simp [Place.holds]) ?_ ?_ ?_ (directory_unreference a t)
    (fresh_unreference a t) ?_ ?_ ?_
  · intro s hs
    simp [Place.holds, Ne.symm hs]
  · intro s _
    simp [Place.holds]
  · intro s hs
    cases hs
  · intro s hs
    exact slots_unreference_of_ne a hs
  · unfold Admission.leave
    rw [slots_unreference hslot]
    simp only [tally, Place.holds, Nat.zero_add, reduceCtorEq, if_false, Nat.add_zero]
    split <;> split <;> first | rfl | omega | skip
    simp
    omega
  · simpa using halone

/-- The last caller to refer to a slot takes it off the directory. Nobody else goes by it then. -/
theorem retire_last {t : Nat} (h : Orderly a ((key, .unlocked t) :: vs))
    (hlast : references t vs = 0) (hd : a.directory.get? key = some t) :
    Orderly { a.unreference t with directory := a.directory.erase key }
      ((key, .retired t) :: vs) := by
  have hlisted : a.lists t = true := lists_iff.mpr ⟨key, hd⟩
  have hslot := h.slot_of_holds (List.mem_cons_self ..) (s := t) (by simp [Place.holds])
  rw [hlisted, references_cons, occupants_cons, hlast] at hslot
  simp only [Place.holds, if_true, reduceCtorEq, if_false, Nat.add_zero] at hslot
  have hdir : ∀ k, (a.directory.erase key).get? k =
      if k = key then none else a.directory.get? k := fun k => Table.get?_erase ..
  have hlists : ∀ s, ({ a.unreference t with directory := a.directory.erase key } :
      Admission).lists s = (a.lists s && decide (s ≠ t)) :=
    lists_erase hd (fun k hk => h.distinct k key t hk hd) rfl
  refine ⟨?_, ?_, ?_, ?_, ?_⟩
  · intro s
    rw [hlists, references_cons, occupants_cons]
    show (a.unreference t).slots.get? s = _
    by_cases hs : s = t
    · subst hs
      rw [slots_unreference hslot]
      simp [tally, Place.holds, hlast]
    · rw [slots_unreference_of_ne a hs, h.slots s, references_cons, occupants_cons]
      simp [Place.holds, hs, Ne.symm hs]
  · intro s
    have hold := h.alone s
    simpa [occupants_cons] using hold
  · intro v hv s hs
    rcases List.mem_cons.mp hv with rfl | hv
    · cases hs
    · have hold := h.listed v (List.mem_cons_of_mem _ hv) s hs
      have hkey : v.1 ≠ key := by
        intro he
        rw [he, hd] at hold
        have hpos := references_pos hv (Place.holds_pos hs)
        rw [← Option.some.inj hold] at hpos
        omega
      exact (hdir v.1).trans ((if_neg hkey).trans hold)
  · intro k j s hk hj
    change (a.directory.erase key).get? k = some s at hk
    change (a.directory.erase key).get? j = some s at hj
    rw [hdir] at hk hj
    split at hk
    · cases hk
    · split at hj
      · cases hj
      · exact h.distinct k j s hk hj
  · intro s hs
    have hs : a.fresh ≤ s := fresh_unreference a t ▸ hs
    have hne : t ≠ s := by
      have hlt := h.lt_fresh hlisted
      omega
    have hold := h.fresh s hs
    rw [references_cons] at hold
    simp only [Place.holds, hne, if_false, Nat.zero_add] at hold
    rw [hlists, hold.1, references_cons, hold.2]
    simp [Place.holds, hne]

/-- Whether the check finds the caller the last one is for the other callers to say. -/
theorem retire_eq {t : Nat} (h : Orderly a ((key, .unlocked t) :: vs)) :
    a.retire key t = if references t vs = 0 then
      { a.unreference t with directory := a.directory.erase key } else a := by
  have hd : a.directory.get? key = some t :=
    h.listed (key, .unlocked t) (List.mem_cons_self ..) t (by simp [Place.reliesOn])
  have hslot := h.slot_of_holds (List.mem_cons_self ..) (s := t) (by simp [Place.holds])
  rw [lists_iff.mpr ⟨key, hd⟩, references_cons] at hslot
  simp only [Place.holds, if_true] at hslot
  unfold Admission.retire
  rw [hslot, hd]
  by_cases hlast : references t vs = 0
  · simp [hlast]
  · have hmore : ¬ 1 + (1 + references t vs) = 2 := by omega
    simp [hlast, hmore]

theorem retire {t : Nat} (h : Orderly a ((key, .unlocked t) :: vs)) :
    Orderly (a.retire key t) ((key, .retired t) :: vs) := by
  have hd : a.directory.get? key = some t :=
    h.listed (key, .unlocked t) (List.mem_cons_self ..) t (by simp [Place.reliesOn])
  rw [h.retire_eq]
  split
  · rename_i hlast
    exact h.retire_last hlast hd
  · refine h.move (t := t) (by simp [Place.holds]) ?_ ?_ ?_ rfl rfl ?_ ?_ ?_
    · intro s hs
      simp [Place.holds, Ne.symm hs]
    · intro s hs
      simp [Place.holds, Ne.symm hs]
    · intro s hs
      cases hs
    · intro s _
      rfl
    · rw [h.slots t, references_cons, occupants_cons]
      simp [Place.holds]
    · have halone := h.alone t
      simpa [occupants_cons] using halone

theorem passage (h : Orderly a ((key, p) :: vs)) (hp : Passage key a p a' p') :
    Orderly a' ((key, p') :: vs) := by
  cases hp with
  | enter => exact h.enter
  | lock hl => exact h.lock hl
  | unlock => exact h.unlock
  | retire => exact h.retire
  | leave => exact h.leave

theorem turn_back (h : Orderly a ((key, .outside) :: vs)) : Orderly a ((key, .gone) :: vs) :=
  (idle_iff fun _ => rfl).mpr ((idle_iff fun _ => rfl).mp h)

theorem come (h : Orderly a vs) (key : Key) : Orderly a ((key, .outside) :: vs) :=
  (idle_iff fun _ => rfl).mpr h

theorem outside (h : Orderly a []) (keys : List Key) :
    Orderly a (keys.map fun key => (key, .outside)) := by
  induction keys with
  | nil => exact h
  | cons key keys ih => exact ih.come key

/-- Nothing is left where nobody is inside or has been. -/
theorem of_held (h : Admission.Held [] a) : Orderly a [] := by
  have hnone : ∀ k s, a.directory.get? k = some s → False :=
    fun k s hk => List.not_mem_nil ((h.directory k s).mp hk)
  have hlists : ∀ s, a.lists s = false := by
    intro s
    refine Bool.eq_false_iff.mpr fun hl => ?_
    obtain ⟨k, hk⟩ := lists_iff.mp hl
    exact hnone k s hk
  refine ⟨?_, ?_, ?_, ?_, ?_⟩
  · intro s
    rw [hlists, h.outside s fun r hr => absurd hr List.not_mem_nil]
    rfl
  · intro s
    exact Nat.zero_le 1
  · intro v hv
    cases hv
  · intro k j s hk
    exact (hnone k s hk).elim
  · intro s _
    exact ⟨hlists s, rfl⟩

/-- Whoever is inside is so in the slot that is listed for the key. -/
theorem inside_listed (h : Orderly a vs) {v : Key × Place} (hv : v ∈ vs) (hin : v.2.isInside = true) :
    ∃ s, v.2 = .inside s ∧ a.directory.get? v.1 = some s := by
  obtain ⟨k, p⟩ := v
  cases p <;> simp only [Place.isInside, Bool.false_eq_true] at hin
  rename_i s
  exact ⟨s, rfl, h.listed _ hv s (by simp [Place.reliesOn])⟩

theorem one_inside (h : Orderly a vs) (key : Key) :
    (vs.countP fun v => v.1 = key && v.2.isInside) ≤ 1 := by
  have listed : ∀ v ∈ vs, (v.1 = key && v.2.isInside) = true →
      ∃ s, v.2 = .inside s ∧ a.directory.get? key = some s := by
    intro v hv hin
    simp only [Bool.and_eq_true, decide_eq_true_eq] at hin
    obtain ⟨rfl, hin⟩ := hin
    exact h.inside_listed hv hin
  cases hd : a.directory.get? key with
  | none =>
    have hnone : (vs.countP fun v => v.1 = key && v.2.isInside) = 0 := by
      refine List.countP_eq_zero.mpr fun v hv hin => ?_
      obtain ⟨s, -, hs⟩ := listed v hv hin
      cases hd.symm.trans hs
    omega
  | some t =>
    refine Nat.le_trans (List.countP_mono_left fun v hv hin => ?_) (h.alone t)
    obtain ⟨s, hinside, hs⟩ := listed v hv hin
    cases hd.symm.trans hs
    simp [hinside]

theorem others_outside (h : Orderly a ((key, p) :: vs)) (hp : p.isInside = true)
    {v : Key × Place} (hv : v ∈ vs) (hk : v.1 = key) : v.2.isInside = false := by
  refine Bool.eq_false_iff.mpr fun hin => ?_
  have hone := h.one_inside key
  rw [List.countP_cons, if_pos (by simp [hp])] at hone
  have hpos : 0 < vs.countP fun v => v.1 = key && v.2.isInside :=
    List.countP_pos_iff.mpr ⟨v, hv, by simp [hk, hin]⟩
  omega

/-- A caller goes inside at once while no other caller of the key is. -/
theorem admits (h : Orderly a vs) (hout : ∀ v ∈ vs, v.1 = key → v.2.isInside = false) :
    a.admits key = true := by
  have hin := (h.come key).enter
  have hslot := hin.slot_of_holds (List.mem_cons_self ..) (s := (a.enter key).2)
    (by simp [Place.holds])
  have hlisted := hin.listed _ (List.mem_cons_self ..) (a.enter key).2 (by simp [Place.reliesOn])
  have hnobody : occupants (a.enter key).2 ((key, .waiting (a.enter key).2) :: vs) = 0 := by
    refine List.countP_eq_zero.mpr ?_
    intro v hv hins
    have hins : v.2 = .inside (a.enter key).2 := of_decide_eq_true hins
    rcases List.mem_cons.mp hv with rfl | hv
    · cases hins
    · have hother := hin.listed v (List.mem_cons_of_mem _ hv) (a.enter key).2
        (by simp [hins, Place.reliesOn])
      have hfree := hout v hv (hin.distinct _ _ _ hother hlisted)
      rw [hins] at hfree
      cases hfree
  have hlock : ((a.enter key).1.lock? (a.enter key).2).isSome = true := by
    unfold lock?
    rw [hslot, hnobody]
    rfl
  unfold Admission.admits acquire?
  rwa [Option.isSome_map]

end Orderly

end ExpiringCache
