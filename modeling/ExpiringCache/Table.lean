/-!
# Tables

A table holds at most one value per key. Its rows are kept in the order in which their keys
arrived, and that is the order in which the table is visited; storing under a key that is there
keeps the key's place. That keys do not repeat is part of the type.
-/

namespace ExpiringCache

structure Table (κ α : Type) where
  rows : List (κ × α)
  distinct : (rows.map Prod.fst).Nodup

namespace Table

variable {κ α : Type}

instance [DecidableEq κ] [DecidableEq α] : DecidableEq (Table κ α) := fun s t =>
  if h : s.rows = t.rows then
    isTrue (by cases s; cases t; cases h; rfl)
  else isFalse (fun e => h (congrArg rows e))

theorem ext_rows {s t : Table κ α} (h : s.rows = t.rows) : s = t := by
  cases s; cases t; cases h; rfl

def empty : Table κ α := ⟨[], List.nodup_nil⟩

instance : Inhabited (Table κ α) := ⟨empty⟩

def keys (t : Table κ α) : List κ := t.rows.map Prod.fst

def size (t : Table κ α) : Nat := t.rows.length

variable [DecidableEq κ]

def get? (t : Table κ α) (k : κ) : Option α := (t.rows.find? (·.1 = k)).map Prod.snd

/-- Applies `f` to the value under `k`, if there is one. -/
def modify (t : Table κ α) (k : κ) (f : α → α) : Table κ α where
  rows := t.rows.map fun r => if r.1 = k then (r.1, f r.2) else r
  distinct := by
    have h : (t.rows.map fun r => if r.1 = k then (r.1, f r.2) else r).map Prod.fst =
        t.rows.map Prod.fst := by
      rw [List.map_map]
      exact List.map_congr_left fun r _ => by
        simp only [Function.comp]
        split <;> rfl
    rw [h]
    exact t.distinct

/-- Stores `v` under `k`, in the place of what was there or else as the last row. -/
def put (t : Table κ α) (k : κ) (v : α) : Table κ α :=
  if h : k ∈ t.keys then t.modify k fun _ => v
  else
    { rows := t.rows ++ [(k, v)]
      distinct := by
        rw [List.map_append, List.nodup_append]
        refine ⟨t.distinct, by simp, ?_⟩
        intro a ha b hb hab
        simp only [List.map_cons, List.map_nil, List.mem_singleton] at hb
        exact h (by rw [← hb, ← hab]; exact ha) }

def erase (t : Table κ α) (k : κ) : Table κ α where
  rows := t.rows.filter (·.1 ≠ k)
  distinct := List.Nodup.sublist (List.filter_sublist.map Prod.fst) t.distinct

@[simp] theorem get?_empty (k : κ) : (empty : Table κ α).get? k = none := rfl

theorem mem_keys_iff {t : Table κ α} {k : κ} : k ∈ t.keys ↔ ∃ v, t.get? k = some v := by
  constructor
  · intro h
    obtain ⟨r, hr, hk⟩ := List.mem_map.mp h
    cases hf : t.rows.find? (·.1 = k) with
    | some q => exact ⟨q.2, by simp [get?, hf]⟩
    | none =>
      have := List.find?_eq_none.mp hf r hr
      simp [hk] at this
  · rintro ⟨v, h⟩
    simp only [get?, Option.map_eq_some_iff] at h
    obtain ⟨r, hr, _⟩ := h
    have hk := List.find?_some hr
    simp only [decide_eq_true_eq] at hk
    exact List.mem_map.mpr ⟨r, List.mem_of_find?_eq_some hr, hk⟩

theorem get?_eq_none_iff {t : Table κ α} {k : κ} : t.get? k = none ↔ k ∉ t.keys := by
  rw [mem_keys_iff]
  cases t.get? k <;> simp

theorem find?_of_mem {rows : List (κ × α)} {k : κ} {v : α} (hd : (rows.map Prod.fst).Nodup)
    (h : (k, v) ∈ rows) : rows.find? (·.1 = k) = some (k, v) := by
  induction rows with
  | nil => cases h
  | cons r rows ih =>
    rw [List.map_cons, List.nodup_cons] at hd
    rw [List.find?_cons]
    rcases List.mem_cons.mp h with rfl | h
    · simp
    · have hne : r.1 ≠ k := by
        intro he
        exact hd.1 (List.mem_map.mpr ⟨(k, v), h, he.symm⟩)
      simp only [hne, decide_false]
      exact ih hd.2 h

theorem get?_eq_some_iff {t : Table κ α} {k : κ} {v : α} :
    t.get? k = some v ↔ (k, v) ∈ t.rows := by
  unfold get?
  constructor
  · intro h
    obtain ⟨⟨j, u⟩, hf, rfl⟩ := Option.map_eq_some_iff.mp h
    have hk := List.find?_some hf
    simp only [decide_eq_true_eq] at hk
    rw [← hk]
    exact List.mem_of_find?_eq_some hf
  · intro h
    rw [find?_of_mem t.distinct h]
    rfl

theorem find?_map_row (rows : List (κ × α)) (k j : κ) (f : α → α) :
    (rows.map fun r => if r.1 = k then (r.1, f r.2) else r).find? (·.1 = j) =
      (rows.find? (·.1 = j)).map fun r => if r.1 = k then (r.1, f r.2) else r := by
  induction rows with
  | nil => rfl
  | cons r rows ih =>
    have hfst : (if r.1 = k then (r.1, f r.2) else r).1 = r.1 := by split <;> rfl
    simp only [List.map_cons, List.find?_cons, hfst]
    by_cases hj : r.1 = j
    · simp [hj]
    · simp only [hj, decide_false]
      exact ih

theorem get?_modify (t : Table κ α) (k j : κ) (f : α → α) :
    (t.modify k f).get? j = if j = k then (t.get? k).map f else t.get? j := by
  simp only [get?, modify, find?_map_row]
  cases hf : t.rows.find? (·.1 = j) with
  | none =>
    by_cases hj : j = k
    · subst hj
      simp [hf]
    · simp [hj]
  | some r =>
    have hk := List.find?_some hf
    simp only [decide_eq_true_eq] at hk
    by_cases hj : j = k
    · subst hj
      simp [hf, hk]
    · have : r.1 ≠ k := fun e => hj (by rw [← hk, e])
      simp [hj, this]

@[simp] theorem size_modify (t : Table κ α) (k : κ) (f : α → α) :
    (t.modify k f).size = t.size := by
  unfold size modify
  exact List.length_map _

theorem get?_put (t : Table κ α) (k j : κ) (v : α) :
    (t.put k v).get? j = if j = k then some v else t.get? j := by
  by_cases h : k ∈ t.keys
  · obtain ⟨w, hw⟩ := mem_keys_iff.mp h
    simp only [put, h, dite_true, get?_modify, hw, Option.map_some]
  · simp only [put, h, dite_false, get?, List.find?_append]
    have hnone := get?_eq_none_iff.mpr h
    simp only [get?, Option.map_eq_none_iff] at hnone
    by_cases hj : j = k
    · subst hj
      simp [hnone]
    · have : ¬k = j := fun e => hj e.symm
      simp [hj, this]

theorem get?_erase (t : Table κ α) (k j : κ) :
    (t.erase k).get? j = if j = k then none else t.get? j := by
  simp only [get?, erase, List.find?_filter]
  by_cases hj : j = k
  · subst hj
    simp
  · rw [if_neg hj]
    congr 2
    funext r
    by_cases hr : r.1 = j
    · simp [hr, hj]
    · simp [hr]

theorem size_put_of_none {t : Table κ α} {k : κ} (h : t.get? k = none) (v : α) :
    (t.put k v).size = t.size + 1 := by
  have hk : k ∉ t.keys := get?_eq_none_iff.mp h
  simp [put, hk, size]

theorem size_put_of_some {t : Table κ α} {k : κ} {u : α} (h : t.get? k = some u) (v : α) :
    (t.put k v).size = t.size := by
  have hk : k ∈ t.keys := mem_keys_iff.mpr ⟨u, h⟩
  simp [put, hk]

theorem length_filter_ne {rows : List (κ × α)} {k : κ} {v : α}
    (hd : (rows.map Prod.fst).Nodup) (h : (k, v) ∈ rows) :
    (rows.filter (·.1 ≠ k)).length + 1 = rows.length := by
  induction rows with
  | nil => cases h
  | cons r rows ih =>
    rw [List.map_cons, List.nodup_cons] at hd
    rcases List.mem_cons.mp h with rfl | h
    · have hrest : ∀ q ∈ rows, decide (q.1 ≠ k) = true := by
        intro q hq
        exact decide_eq_true fun he => hd.1 (List.mem_map.mpr ⟨q, hq, he⟩)
      rw [List.filter_cons_of_neg (by simp), List.filter_eq_self.mpr hrest, List.length_cons]
    · have hne : r.1 ≠ k := fun he => hd.1 (List.mem_map.mpr ⟨(k, v), h, he.symm⟩)
      rw [List.filter_cons_of_pos (by simpa using hne), List.length_cons, ih hd.2 h,
        List.length_cons]

theorem size_erase_of_some {t : Table κ α} {k : κ} {v : α} (h : t.get? k = some v) :
    (t.erase k).size + 1 = t.size := length_filter_ne t.distinct (get?_eq_some_iff.mp h)

end Table

end ExpiringCache
