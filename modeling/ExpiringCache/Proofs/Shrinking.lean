import ExpiringCache.Proofs.Paths
import Mathlib.Data.List.Perm.Subperm

/-!
# Shrinking

Work during which nothing is stored: what it leaves was there before, marked or not as before, and due
if it was due. So neither the entries nor those of them that nobody decides about become more; a mark
or a departure makes them fewer.
-/

namespace ExpiringCache

variable {ν η μ : Type}

/-- It stores nothing, registers no handler and does not give the cache up. -/
def Operation.Frugal : Operation ν η → Prop
  | .get _ => True
  | .contains _ => True
  | .remove _ => True
  | .clear => True
  | .sweep => True
  | .length => True
  | .keys => True
  | .statistics => True
  | _ => False

/-- The entry has no policy or one that carries a deadline. -/
def Entry.Dated (e : Entry ν η) : Prop := ∀ policy, e.policy = some policy → policy.isTimed = true

namespace Cache

def Dated (c : Cache ν η) : Prop := ∀ key e, c.find? key = some e → e.Dated

/-- The keys of the entries that nobody decides about. -/
def unmarked (c : Cache ν η) : List Key := (c.entries.rows.filter fun r => !r.2.pending).map Prod.fst

/-- How many evictions can still begin. -/
def free (c : Cache ν η) : Nat := c.unmarked.length

/-- A callback is called only where this has become less. -/
def charge (c : Cache ν η) : Nat := c.entries.size + c.free

variable {c d : Cache ν η} {key : Key}

theorem mem_unmarked : key ∈ c.unmarked ↔ ∃ e, c.find? key = some e ∧ e.pending = false := by
  unfold unmarked find?
  rw [List.mem_map]
  constructor
  · rintro ⟨⟨j, e⟩, hr, rfl⟩
    obtain ⟨hmem, hp⟩ := List.mem_filter.mp hr
    exact ⟨e, Table.get?_eq_some_iff.mpr hmem, by simpa using hp⟩
  · rintro ⟨e, he, hp⟩
    exact ⟨(key, e), List.mem_filter.mpr ⟨Table.get?_eq_some_iff.mp he, by simpa using hp⟩, rfl⟩

theorem nodup_unmarked (c : Cache ν η) : c.unmarked.Nodup :=
  List.Nodup.sublist (List.filter_sublist.map Prod.fst) c.entries.distinct

theorem free_le_size (c : Cache ν η) : c.free ≤ c.entries.size := by
  unfold free unmarked Table.size
  rw [List.length_map]
  exact List.length_filter_le ..

theorem size_le_of_keys (h : ∀ key, key ∈ d.entries.keys → key ∈ c.entries.keys) :
    d.entries.size ≤ c.entries.size := by
  have hle := (List.subperm_of_subset d.entries.distinct h).length_le
  unfold Table.keys at hle
  rw [List.length_map, List.length_map] at hle
  exact hle

theorem dated_of_rows (h : (c.entries.rows.all fun r => r.2.policy.all (·.isTimed)) = true) :
    c.Dated := by
  intro key e he policy hp
  have hrow := List.all_eq_true.mp h (key, e) (Table.get?_eq_some_iff.mp he)
  rw [hp] at hrow
  exact hrow

theorem free_le (h : ∀ key ∈ d.unmarked, key ∈ c.unmarked) : d.free ≤ c.free :=
  (List.subperm_of_subset d.nodup_unmarked h).length_le

theorem free_lt (hc : key ∈ c.unmarked) (hd : key ∉ d.unmarked)
    (h : ∀ j ∈ d.unmarked, j ∈ c.unmarked) : d.free < c.free := by
  have hnodup : (key :: d.unmarked).Nodup := List.nodup_cons.mpr ⟨hd, d.nodup_unmarked⟩
  exact (List.subperm_of_subset hnodup (List.cons_subset.mpr ⟨hc, h⟩)).length_le

theorem free_mark_lt {e : Entry ν η} {g : Nat} (he : c.insertion? key g = some e)
    (hp : e.pending = false) : (c.mark true key g).free < c.free := by
  obtain ⟨hf, rfl⟩ := insertion?_eq_some.mp he
  apply free_lt (mem_unmarked.mpr ⟨e, hf, hp⟩)
  · intro hmem
    obtain ⟨e', he', hp'⟩ := mem_unmarked.mp hmem
    rw [find?_mark, if_pos rfl, hf] at he'
    simp only [Option.map_some, if_true, Option.some.injEq] at he'
    rw [← he'] at hp'
    cases hp'
  · intro j hj
    obtain ⟨e', he', hp'⟩ := mem_unmarked.mp hj
    rw [find?_mark] at he'
    split at he'
    · rename_i hkey
      rw [hkey]
      exact mem_unmarked.mpr ⟨e, hf, hp⟩
    · exact mem_unmarked.mpr ⟨e', he', hp'⟩

theorem size_mark (b : Bool) (key : Key) (g : Nat) (c : Cache ν η) :
    (c.mark b key g).entries.size = c.entries.size := Table.size_modify ..

theorem free_takeOut_le (key : Key) (f : Stats → Stats) (c : Cache ν η) :
    (c.takeOut key f).free ≤ c.free := by
  apply free_le
  intro j hj
  obtain ⟨e, he, hp⟩ := mem_unmarked.mp hj
  exact mem_unmarked.mpr ⟨e, (find?_takeOut_eq_some.mp he).2, hp⟩

theorem free_takeOut_lt {e : Entry ν η} (f : Stats → Stats) (he : c.find? key = some e)
    (hp : e.pending = false) : (c.takeOut key f).free < c.free := by
  apply free_lt (mem_unmarked.mpr ⟨e, he, hp⟩)
  · intro hmem
    obtain ⟨e', he', -⟩ := mem_unmarked.mp hmem
    exact (find?_takeOut_eq_some.mp he').1 rfl
  · intro j hj
    obtain ⟨e', he', hp'⟩ := mem_unmarked.mp hj
    exact mem_unmarked.mpr ⟨e', (find?_takeOut_eq_some.mp he').2, hp'⟩

theorem size_takeOut {e : Entry ν η} (f : Stats → Stats) (he : c.find? key = some e) :
    (c.takeOut key f).entries.size + 1 = c.entries.size := Table.size_erase_of_some he

theorem charge_takeOut_lt {e : Entry ν η} (f : Stats → Stats) (he : c.find? key = some e) :
    (c.takeOut key f).charge < c.charge := by
  have hs := size_takeOut f he
  have hf := free_takeOut_le key f c
  unfold charge
  omega

theorem charge_mark_lt {e : Entry ν η} {g : Nat} (he : c.insertion? key g = some e)
    (hp : e.pending = false) : (c.mark true key g).charge < c.charge := by
  have hf := free_mark_lt he hp
  unfold charge
  rw [size_mark]
  omega

end Cache

namespace Entry

theorem Dated.touch {e : Entry ν η} (h : e.Dated) (t : Instant) : (e.touch t).Dated := by
  intro policy hp
  obtain ⟨p, hq, rfl⟩ := Option.map_eq_some_iff.mp hp
  rw [Policy.isTimed_accessed]
  exact h p hq

end Entry

theorem Cache.Dated.mark {c : Cache ν η} (h : c.Dated) (b : Bool) (key : Key) (g : Nat) :
    (c.mark b key g).Dated := by
  intro j e' he'
  obtain ⟨e, he, marked, rfl⟩ := exists_of_find?_mark he'
  exact h j e he

/-- What is stored in the end was stored in the beginning. -/
structure Shrinks (w v : World ν η μ) : Prop where
  now : w.now ≤ v.now
  stored : ∀ key e', v.cache.find? key = some e' → ∃ e, w.cache.find? key = some e ∧
    e'.generation = e.generation ∧ e'.pending = e.pending ∧ (e.Dated → e'.Dated) ∧
    (e.due w.now = true → e'.due v.now = true)

namespace Shrinks

variable {w v u : World ν η μ}

theorem of_find? (hnow : w.now ≤ v.now)
    (h : ∀ key e, v.cache.find? key = some e → w.cache.find? key = some e) : Shrinks w v :=
  ⟨hnow, fun key e he => ⟨e, h key e he, rfl, rfl, id, Entry.due_mono hnow⟩⟩

theorem refl (w : World ν η μ) : Shrinks w w := of_find? (Int.le_refl _) fun _ _ h => h

theorem trans (h : Shrinks w v) (k : Shrinks v u) : Shrinks w u := by
  refine ⟨Int.le_trans h.now k.now, ?_⟩
  intro key e'' he''
  obtain ⟨e', he', hg', hp', ht', hd'⟩ := k.stored key e'' he''
  obtain ⟨e, he, hg, hp, ht, hd⟩ := h.stored key e' he'
  exact ⟨e, he, hg'.trans hg, hp'.trans hp, ht' ∘ ht, hd' ∘ hd⟩

theorem of_entries (hnow : w.now ≤ v.now) (h : v.cache.entries = w.cache.entries) : Shrinks w v := by
  apply of_find? hnow
  intro key e he
  unfold Cache.find? at he ⊢
  rw [← h]
  exact he

theorem takeOut (key : Key) (f : Stats → Stats) (w : World ν η μ) :
    Shrinks w (w.change (.takeOut key f)) :=
  of_find? (Int.le_refl _) fun _ _ he => (Cache.find?_takeOut_eq_some.mp he).2

theorem emptied (w : World ν η μ) : Shrinks w w.emptied := by
  rw [World.emptied_eq]
  exact of_find? (Int.le_refl _) fun _ _ he => nomatch he

/-- A note changes nothing. -/
theorem noted (h : Shrinks w v) (r : Record ν η) : Shrinks w (v.note r) := ⟨h.now, h.stored⟩

theorem touch {key : Key} {e : Entry ν η} (he : w.cache.find? key = some e)
    (hlive : e.due w.now = false) : Shrinks w (w.change (.touch w.now key)) := by
  refine ⟨Int.le_refl _, ?_⟩
  intro j e' he'
  obtain ⟨old, hold, rfl | ⟨rfl, rfl⟩⟩ := Cache.exists_of_find?_touch he'
  · exact ⟨e', hold, rfl, rfl, id, id⟩
  · obtain rfl := Option.some.inj (he.symm.trans hold)
    refine ⟨e, he, rfl, rfl, fun h => h.touch _, ?_⟩
    intro hd
    rw [hlive] at hd
    cases hd

/-- The mark is as before once the handlers have decided. -/
theorem decided {key : Key} {g : Nat} {e : Entry ν η} (he : w.cache.insertion? key g = some e)
    (hp : e.pending = false)
    (h : Shrinks ((w.change (.mark true key g)).push (.deciding key g)) v) :
    Shrinks w ((v.change (.mark false key g)).pop) := by
  obtain ⟨hf, rfl⟩ := Cache.insertion?_eq_some.mp he
  refine ⟨h.now, ?_⟩
  intro j e₂ he₂
  rw [World.cache_pop, World.cache_change, Cache.find?_mark] at he₂
  have old : ∀ e₁, v.cache.find? j = some e₁ → ∃ e₀, (if j = key then
      (w.cache.find? key).map fun x => if x.generation = e.generation then { x with pending := true }
        else x else w.cache.find? j) = some e₀ ∧ e₁.generation = e₀.generation ∧
      e₁.pending = e₀.pending ∧ (e₀.Dated → e₁.Dated) ∧
      (e₀.due w.now = true → e₁.due v.now = true) := by
    intro e₁ he₁
    obtain ⟨e₀, he₀, hrest⟩ := h.stored j e₁ he₁
    rw [World.cache_push, World.cache_change, Cache.find?_mark] at he₀
    exact ⟨e₀, he₀, hrest⟩
  by_cases hj : j = key
  · subst hj
    rw [if_pos rfl] at he₂
    obtain ⟨e₁, he₁, rfl⟩ := Option.map_eq_some_iff.mp he₂
    obtain ⟨e₀, he₀, hg, -, hdated, hdue⟩ := old e₁ he₁
    rw [if_pos rfl, hf, Option.map_some, if_pos rfl] at he₀
    obtain rfl := Option.some.inj he₀
    rw [if_pos hg]
    exact ⟨e, hf, hg, hp.symm, hdated, hdue⟩
  · rw [if_neg hj] at he₂
    obtain ⟨e₀, he₀, hrest⟩ := old e₂ he₂
    rw [if_neg hj] at he₀
    exact ⟨e₀, he₀, hrest⟩

variable (h : Shrinks w v)

include h

theorem dated (hw : w.cache.Dated) : v.cache.Dated := by
  intro key e' he'
  obtain ⟨e, he, -, -, ht, -⟩ := h.stored key e' he'
  exact ht (hw key e he)

theorem size_le : v.cache.entries.size ≤ w.cache.entries.size := by
  apply Cache.size_le_of_keys
  intro key hk
  obtain ⟨e', he'⟩ := Table.mem_keys_iff.mp hk
  obtain ⟨e, he, -⟩ := h.stored key e' he'
  exact Table.mem_keys_iff.mpr ⟨e, he⟩

theorem free_le : v.cache.free ≤ w.cache.free := by
  apply Cache.free_le
  intro key hk
  obtain ⟨e', he', hp'⟩ := Cache.mem_unmarked.mp hk
  obtain ⟨e, he, -, hp, -⟩ := h.stored key e' he'
  exact Cache.mem_unmarked.mpr ⟨e, he, hp.symm.trans hp'⟩

end Shrinks

end ExpiringCache
