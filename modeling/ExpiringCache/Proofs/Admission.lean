import ExpiringCache.Admission

/-!
# Who is inside

Callers that go in and out with nobody in between are told by the list of those inside, each with
its key and its slot. The directory lists their slots and no others, each of them is locked and
referred to three times, and nothing else is left of anyone who was inside before.
-/

namespace ExpiringCache.Admission

variable {a acquired : Admission} {key : Key} {slot : Nat} {held : List (Key × Nat)}

structure Held (held : List (Key × Nat)) (a : Admission) : Prop where
  directory : ∀ k s, a.directory.get? k = some s ↔ (k, s) ∈ held
  inside : ∀ r ∈ held, a.slots.get? r.2 = some ⟨3, true⟩
  outside : ∀ s, (∀ r ∈ held, r.2 ≠ s) → a.slots.get? s = none
  keys : (held.map Prod.fst).Nodup
  slots : (held.map Prod.snd).Nodup
  fresh : ∀ r ∈ held, r.2 < a.fresh

theorem held_empty : Held [] empty where
  directory k s := by simp [empty]
  inside r hr := by cases hr
  outside s _ := rfl
  keys := List.nodup_nil
  slots := List.nodup_nil
  fresh r hr := by cases hr

theorem Held.acquire?_eq_some (h : Held held a) (ha : a.acquire? key = some (acquired, slot)) :
    a.directory.get? key = none ∧ slot = a.fresh ∧
      acquired.directory = a.directory.put key a.fresh ∧
      acquired.slots = (a.slots.put a.fresh ⟨2, false⟩).modify a.fresh
        (fun s => ⟨s.references + 1, true⟩) ∧
      acquired.fresh = a.fresh + 1 := by
  unfold acquire? enter at ha
  cases hd : a.directory.get? key with
  | some s =>
    exfalso
    have hs := h.inside _ ((h.directory key s).mp hd)
    simp [hd, lock?, reference, Table.get?_modify, hs] at ha
  | none =>
    simp only [hd, lock?, Table.get?_put, if_true, Option.any_some, Bool.not_false,
      Option.map_some, Option.some.injEq, Prod.mk.injEq] at ha
    obtain ⟨rfl, rfl⟩ := ha
    exact ⟨rfl, rfl, rfl, rfl, rfl⟩

theorem Held.acquire (h : Held held a) (ha : a.acquire? key = some (acquired, slot)) :
    Held ((key, slot) :: held) acquired := by
  obtain ⟨hnone, rfl, hdir, hslots, hfresh⟩ := h.acquire?_eq_some ha
  have hnew : ∀ r ∈ held, r.2 ≠ a.fresh := fun r hr => Nat.ne_of_lt (h.fresh r hr)
  have hkey : ∀ r ∈ held, r.1 ≠ key := by
    intro r hr hk
    have hd := (h.directory r.1 r.2).mpr hr
    rw [hk, hnone] at hd
    cases hd
  refine ⟨?_, ?_, ?_, ?_, ?_, ?_⟩
  · intro k s
    rw [hdir, Table.get?_put]
    by_cases hk : k = key
    · subst hk
      simp only [if_true, Option.some.injEq, List.mem_cons, Prod.mk.injEq, true_and]
      constructor
      · intro hs
        exact Or.inl hs.symm
      · rintro (hs | hs)
        · exact hs.symm
        · exact absurd rfl (hkey _ hs)
    · simp only [hk, if_false, List.mem_cons, Prod.mk.injEq, false_and, false_or]
      exact h.directory k s
  · intro r hr
    rw [hslots, Table.get?_modify]
    rcases List.mem_cons.mp hr with rfl | hr
    · simp [Table.get?_put]
    · simp [Table.get?_put, hnew r hr, h.inside r hr]
  · intro s hs
    have hne : s ≠ a.fresh := fun he => hs _ (List.mem_cons_self ..) he.symm
    rw [hslots, Table.get?_modify, if_neg hne, Table.get?_put, if_neg hne]
    exact h.outside s fun r hr => hs r (List.mem_cons_of_mem _ hr)
  · rw [List.map_cons, List.nodup_cons]
    refine ⟨?_, h.keys⟩
    intro hm
    obtain ⟨r, hr, hk⟩ := List.mem_map.mp hm
    exact hkey r hr hk
  · rw [List.map_cons, List.nodup_cons]
    refine ⟨?_, h.slots⟩
    intro hm
    obtain ⟨r, hr, hs⟩ := List.mem_map.mp hm
    exact hnew r hr hs
  · intro r hr
    rw [hfresh]
    rcases List.mem_cons.mp hr with rfl | hr
    · exact Nat.lt_succ_self _
    · exact Nat.lt_succ_of_lt (h.fresh r hr)

@[simp] theorem fresh_unreference (a : Admission) (slot : Nat) :
    (a.unreference slot).fresh = a.fresh := by
  unfold unreference
  split <;> rfl

@[simp] theorem directory_unreference (a : Admission) (slot : Nat) :
    (a.unreference slot).directory = a.directory := by
  unfold unreference
  split <;> rfl

theorem slots_unreference_of_ne (a : Admission) {slot s : Nat} (h : s ≠ slot) :
    (a.unreference slot).slots.get? s = a.slots.get? s := by
  unfold unreference
  split <;> simp [Table.get?_erase, Table.get?_modify, h]

theorem slots_unreference_of_one {slot : Nat} {locked : Bool}
    (h : a.slots.get? slot = some ⟨1, locked⟩) :
    (a.unreference slot).slots.get? slot = none := by
  unfold unreference
  simp [h, Table.get?_erase]

/-- Whoever goes out leaves neither an entry in the directory nor a slot. -/
theorem Held.release_eq (h : Held ((key, slot) :: held) a) :
    (a.release key slot).directory = a.directory.erase key ∧
      (∀ s, (a.release key slot).slots.get? s = if s = slot then none else a.slots.get? s) ∧
      (a.release key slot).fresh = a.fresh := by
  have hs := h.inside _ (List.mem_cons_self ..)
  have hd := (h.directory key slot).mpr (List.mem_cons_self ..)
  have hu : (a.unlock slot).slots.get? slot = some ⟨2, false⟩ := by
    simp [unlock, Table.get?_modify, hs]
  have hd' : (a.unlock slot).directory.get? key = some slot := hd
  have hretire : (a.unlock slot).retire key slot =
      { (a.unlock slot).unreference slot with directory := a.directory.erase key } := by
    unfold retire
    simp only [hu, Option.any_some, decide_true, if_true, hd']
    rfl
  have hslots : ((a.unlock slot).retire key slot).slots.get? slot = some ⟨1, false⟩ := by
    rw [hretire]
    simp [unreference, hu, Table.get?_modify]
  refine ⟨?_, ?_, ?_⟩
  · unfold release leave
    rw [directory_unreference, hretire]
  · intro s
    unfold release leave
    by_cases he : s = slot
    · subst he
      rw [if_pos rfl, slots_unreference_of_one hslots]
    · rw [if_neg he, slots_unreference_of_ne _ he, hretire]
      show ((a.unlock slot).unreference slot).slots.get? s = _
      rw [slots_unreference_of_ne _ he]
      simp [unlock, Table.get?_modify, he]
  · unfold release leave
    rw [fresh_unreference, hretire]
    show ((a.unlock slot).unreference slot).fresh = _
    rw [fresh_unreference]
    rfl

theorem Held.release (h : Held ((key, slot) :: held) a) : Held held (a.release key slot) := by
  obtain ⟨hdir, hslots, hfresh⟩ := h.release_eq
  have hkeys := List.nodup_cons.mp h.keys
  have hnums := List.nodup_cons.mp h.slots
  have hkey : ∀ r ∈ held, r.1 ≠ key := by
    rintro r hr rfl
    exact hkeys.1 (List.mem_map.mpr ⟨r, hr, rfl⟩)
  have hslot : ∀ r ∈ held, r.2 ≠ slot := by
    rintro r hr rfl
    exact hnums.1 (List.mem_map.mpr ⟨r, hr, rfl⟩)
  refine ⟨?_, ?_, ?_, hkeys.2, hnums.2, ?_⟩
  · intro k s
    rw [hdir, Table.get?_erase]
    by_cases hk : k = key
    · subst hk
      simp only [if_true, reduceCtorEq, false_iff]
      intro hm
      exact hkey _ hm rfl
    · rw [if_neg hk, h.directory k s]
      simp [hk]
  · intro r hr
    rw [hslots, if_neg (hslot r hr)]
    exact h.inside r (List.mem_cons_of_mem _ hr)
  · intro s hs
    rw [hslots]
    split
    · rfl
    · rename_i hne
      refine h.outside s ?_
      intro r hr
      rcases List.mem_cons.mp hr with rfl | hr
      · exact fun he => hne he.symm
      · exact hs r hr
  · intro r hr
    rw [hfresh]
    exact h.fresh r (List.mem_cons_of_mem _ hr)

/-- A caller is let in exactly while nobody holds the key. -/
theorem Held.acquire?_isSome_iff (h : Held held a) :
    (a.acquire? key).isSome = true ↔ ∀ slot, (key, slot) ∉ held := by
  constructor
  · intro hsome slot hmem
    obtain ⟨⟨acquired, s⟩, ha⟩ := Option.isSome_iff_exists.mp hsome
    have hnone := (h.acquire?_eq_some ha).1
    rw [(h.directory key slot).mpr hmem] at hnone
    cases hnone
  · intro hno
    have hd : a.directory.get? key = none := by
      cases hd : a.directory.get? key with
      | none => rfl
      | some s => exact absurd ((h.directory key s).mp hd) (hno s)
    unfold acquire? enter
    simp [hd, lock?, Table.get?_put]

theorem Held.acquire?_isSome (h : Held [] a) (key : Key) : (a.acquire? key).isSome = true :=
  h.acquire?_isSome_iff.mpr fun _ => List.not_mem_nil

end ExpiringCache.Admission
