import ExpiringCache.Config.Reader
import ExpiringCache.Proofs.Grammar
import ExpiringCache.Settings

/-!
# The format of configurations

A configuration is written as a document: an object, with any blanks and any members in any order. A
document means a configuration if all its names say something, if each known member is there at most
once, and if the interval is written as a natural number in digits alone and the disposal as a flag. It
is read as what it means, and a document that means nothing is not read; nor is any other text that
begins like an object.
-/

namespace ExpiringCache

open Json

/-! ## Counts -/

namespace Json

/-- The number that a plain literal stands for: digits alone, of which the first of several is not a
zero. -/
def count? (v : List Char) : Option UInt64 :=
  if v ≠ [] ∧ v.all Char.isDigit ∧ (v.head? = some '0' → v = ['0']) ∧
    digitsValue 0 v < UInt64.size then some (.ofNat (digitsValue 0 v)) else none

/-- No natural number was read. -/
def Unnatural (r : Except Fault (Numeral × List Char)) : Prop :=
  ∀ n rest, r ≠ .ok (.natural n, rest)

theorem readReal_unnatural (negative : Bool) (significand : Nat) (exponent : Int)
    (cs : List Char) : Unnatural (readReal negative significand exponent cs) := by
  intro n rest h
  unfold readReal at h
  cases hs : scaled ((Binary64.ofNat significand).getD .zero) exponent with
  | error f => simp [hs, Except.map] at h
  | ok m => simp [hs, Except.map] at h

theorem readExponent_unnatural (negative : Bool) (significand : Nat) (start : Int)
    (cs : List Char) : Unnatural (readExponent negative significand start cs) := by
  intro n rest h
  simp only [readExponent] at h
  split at h
  · cases h
  · split at h
    · split at h
      · split at h <;> cases h
      · exact readReal_unnatural _ _ _ _ n rest h
    · cases h

theorem readFraction_unnatural (negative : Bool) (significand : Nat) (start : Int)
    (cs : List Char) : Unnatural (readFraction negative significand start cs) := by
  intro n rest h
  simp only [readFraction] at h
  split at h
  · cases h
  · unfold afterFraction at h
    split at h
    · exact readReal_unnatural _ _ _ _ n rest h
    · split at h
      · exact readExponent_unnatural _ _ _ _ n rest h
      · exact readReal_unnatural _ _ _ _ n rest h

theorem integer_unnatural (significand : Nat) (cs : List Char) :
    Unnatural (.ok (integer true significand cs)) := by
  intro n rest h
  simp only [integer, if_true] at h
  split at h <;> cases h

theorem afterWhole_unnatural (significand dropped : Nat) (cs : List Char) :
    Unnatural (afterWhole true significand dropped cs) := by
  intro n rest h
  unfold afterWhole at h
  split at h
  · split at h
    · exact integer_unnatural _ _ n rest h
    · exact readReal_unnatural _ _ _ _ n rest h
  · split at h
    · exact readFraction_unnatural _ _ _ _ n rest h
    · split at h
      · exact readExponent_unnatural _ _ _ _ n rest h
      · split at h
        · exact integer_unnatural _ _ n rest h
        · exact readReal_unnatural _ _ _ _ n rest h

theorem readNumber_unnatural (cs : List Char) : Unnatural (readNumber true cs) := by
  intro n rest h
  unfold readNumber at h
  split at h
  · cases h
  · split at h
    · split at h
      · cases h
      · exact afterWhole_unnatural _ _ _ n rest h
    · split at h
      · exact afterWhole_unnatural _ _ _ n rest h
      · cases h

/-- Digits of which none is left over make a number that fits. -/
theorem absorb_all {n : Nat} {digits : List Char} (hn : n < UInt64.size)
    (h : (absorb n digits).2 = []) :
    digitsValue n digits < UInt64.size ∧ (absorb n digits).1 = digitsValue n digits := by
  induction digits generalizing n with
  | nil => exact ⟨hn, rfl⟩
  | cons c digits ih =>
    simp only [absorb] at h ⊢
    split at h
    · rename_i hm
      rw [if_pos hm]
      exact ih hm h
    · cases h

/-- After its digits a number is natural only if it ends there. -/
theorem afterWhole_natural_iff (n : Number) {significand dropped : Nat} {rest rest' : List Char}
    (h : Bounded rest) {k : UInt64} :
    afterWhole false significand dropped (n.tail ++ rest) = .ok (.natural k, rest') ↔
      n.tail = [] ∧ dropped = 0 ∧ k = .ofNat significand ∧ rest' = rest := by
  have plain : ∀ cs : List Char, (if dropped = 0 then .ok (integer false significand cs)
      else readReal false significand dropped cs) = .ok (.natural k, rest') ↔
        dropped = 0 ∧ k = .ofNat significand ∧ rest' = cs := by
    intro cs
    split
    · rename_i hd
      simp [integer, hd, eq_comm]
    · rename_i hd
      exact ⟨fun hr => absurd hr (readReal_unnatural _ _ _ _ k rest'), fun hr => absurd hr.1 hd⟩
  unfold Number.tail
  cases hf : n.fraction with
  | some ds =>
    refine ⟨fun hr => ?_, fun hr => by simp [fractionSpelling] at hr⟩
    exact absurd hr (readFraction_unnatural _ _ _ _ k rest')
  | none =>
    cases he : n.exponent with
    | some e =>
      refine ⟨fun hr => ?_, fun hr => by simp [exponentSpelling, Exponent.spelling] at hr⟩
      have hpoint := e.mark_not_digit.2
      simp only [fractionSpelling, exponentSpelling, Exponent.spelling, List.nil_append,
        List.cons_append, afterWhole, if_neg hpoint, e.isMark, if_true] at hr
      exact absurd hr (readExponent_unnatural _ _ _ _ k rest')
    | none =>
      simp only [fractionSpelling, exponentSpelling, List.nil_append, true_and]
      cases rest with
      | nil => exact plain []
      | cons c rest =>
        have hc := h c rfl
        simp only [afterWhole, if_neg hc.2.1, hc.2.2, Bool.false_eq_true, if_false]
        exact plain (c :: rest)

theorem count?_number (n : Number) (k : UInt64) : count? n.magnitude = some k ↔
    n.tail = [] ∧ digitsValue 0 n.whole.chars < UInt64.size ∧
      k = .ofNat (digitsValue 0 n.whole.chars) := by
  unfold count? Number.magnitude
  cases htail : n.tail with
  | nil =>
    have hall : n.whole.chars.all Char.isDigit = true := List.all_eq_true.mpr n.whole.digit
    have hplain : (n.whole.chars ≠ [] ∧ n.whole.chars.all Char.isDigit = true ∧
        (n.whole.chars.head? = some '0' → n.whole.chars = ['0']) ∧
        digitsValue 0 n.whole.chars < UInt64.size) ↔ digitsValue 0 n.whole.chars < UInt64.size :=
      ⟨fun h => h.2.2.2, fun h => ⟨n.whole.ne_nil, hall, n.leading, h⟩⟩
    simp only [List.append_nil, hplain, true_and]
    simp [eq_comm]
  | cons c cs =>
    have hc : c.isDigit = false := by
      apply n.tail_not_digit bounded_nil
      rw [htail]
      rfl
    simp [hc]

theorem readNumber_natural_iff (n : Number) {rest rest' : List Char} (h : Bounded rest)
    {k : UInt64} : readNumber false (n.magnitude ++ rest) = .ok (.natural k, rest') ↔
      count? n.magnitude = some k ∧ rest' = rest := by
  have hnone := n.tail_not_digit h
  have hfront : n.magnitude ++ rest = n.whole.chars ++ (n.tail ++ rest) := List.append_assoc ..
  rw [count?_number, hfront]
  obtain ⟨c, ds, hwhole, hc, heq⟩ := n.whole.head (n.tail ++ rest)
  rw [heq]
  unfold readNumber
  by_cases hz : c = '0'
  · subst hz
    have hnil := n.zero_alone hwhole
    simp only [if_true, hnil, List.nil_append, if_neg (n.tail_begins_not_digit h)]
    rw [afterWhole_natural_iff n h, hwhole, hnil]
    simp [digitsValue, digitValue, and_assoc]
  · have hdrop := n.whole.dropWhile hnone
    have htake := n.whole.takeWhile hnone
    rw [heq] at hdrop htake
    simp only [if_neg hz, if_pos hc, hdrop, htake]
    rw [afterWhole_natural_iff n h]
    constructor
    · rintro ⟨htail, hd, rfl, rfl⟩
      obtain ⟨hlt, hval⟩ := absorb_all (by decide) (List.length_eq_zero_iff.mp hd)
      exact ⟨⟨htail, hlt, by rw [hval]⟩, rfl⟩
    · rintro ⟨⟨htail, hlt, rfl⟩, rfl⟩
      rw [absorb_eq hlt]
      exact ⟨htail, rfl, rfl, rfl⟩

end Json

namespace Config

theorem readCount_front {cs : List Char} {c : Char} {rest rest' : List Char} {k : UInt64}
    (hc : skipBlanks cs = c :: rest) (h : readCount cs = .ok (k, rest')) :
    (c = '-' ∧ readNumber true rest = .ok (.natural k, rest')) ∨
      c.isDigit = true ∧ readNumber false (c :: rest) = .ok (.natural k, rest') := by
  simp only [readCount, hc] at h
  split at h
  · rename_i hfirst
    split at h
    · cases h
    · rename_i n rest'' hn
      have hnat : n = .natural k ∧ rest'' = rest' := by
        cases n with
        | natural m =>
          cases h
          exact ⟨rfl, rfl⟩
        | _ => cases h
      obtain ⟨rfl, rfl⟩ := hnat
      split at hn
      · exact .inl ⟨‹_›, hn⟩
      · rename_i hne
        exact .inr ⟨hfirst.resolve_left hne, hn⟩
  · cases h

theorem readCount_of_natural {cs : List Char} {c : Char} {rest rest' : List Char} {k : UInt64}
    (hc : skipBlanks cs = c :: rest) (hd : c.isDigit = true)
    (h : readNumber false (c :: rest) = .ok (.natural k, rest')) : readCount cs = .ok (k, rest') := by
  have hne : c ≠ '-' := by
    rintro rfl
    cases hd
  simp [readCount, hc, hd, hne, h, countOf, Except.map]

/-- A value is read as a count if it is a plain literal, and not otherwise. -/
theorem readCount_value {v rest rest' : List Char} (hv : Value v) (ws : Blanks) (h : Bounded rest)
    {k : UInt64} : readCount (ws.chars ++ (v ++ rest)) = .ok (k, rest') ↔
      count? v = some k ∧ rest' = rest := by
  have front : ∀ (c : Char) (v' : List Char), isBlank c = false → v = c :: v' →
      skipBlanks (ws.chars ++ (v ++ rest)) = c :: (v' ++ rest) := by
    rintro c v' hblank rfl
    rw [ws.skip]
    exact skipBlanks_cons hblank _
  have other : ∀ (c : Char) (v' : List Char), v = c :: v' → isBlank c = false → c.isDigit = false →
      (readCount (ws.chars ++ (v ++ rest)) = .ok (k, rest') ↔ count? v = some k ∧ rest' = rest) := by
    intro c v' hcons hblank hd
    constructor
    · intro hr
      rcases readCount_front (front c v' hblank hcons) hr with ⟨-, hn⟩ | ⟨hd', -⟩
      · exact absurd hn (readNumber_unnatural _ k rest')
      · cases hd.symm.trans hd'
    · rintro ⟨hcount, -⟩
      simp [hcons, count?, hd] at hcount
  cases hv with
  | number n =>
    unfold Number.spelling at front other ⊢
    split at front
    · rename_i hneg
      simp only [hneg, if_true] at other ⊢
      exact other '-' n.magnitude rfl rfl rfl
    · rename_i hneg
      simp only [if_neg hneg] at other ⊢
      rw [← readNumber_natural_iff n h]
      obtain ⟨c, ds, -, hd, heq⟩ := n.whole.head n.tail
      have hcs := front c (ds ++ n.tail) (isBlank_of_isDigit hd) heq
      have hnumber : n.magnitude ++ rest = c :: (ds ++ n.tail ++ rest) := by
        unfold Number.magnitude
        rw [heq, List.cons_append]
      constructor
      · intro hr
        rcases readCount_front hcs hr with ⟨rfl, -⟩ | ⟨-, hn⟩
        · cases hd
        · rw [hnumber]
          exact hn
      · intro hn
        rw [hnumber] at hn
        exact readCount_of_natural hcs hd hn
  | null => exact other _ _ rfl rfl rfl
  | flag b => cases b <;> exact other _ _ rfl rfl rfl
  | text => exact other _ _ rfl rfl rfl
  | list => exact other _ _ rfl rfl rfl
  | object => exact other _ _ rfl rfl rfl

/-! ## Flags -/

def flag? (v : List Char) : Option Bool :=
  if v = flagSpelling true then some true
  else if v = flagSpelling false then some false else none

theorem readFlag_flag {cs rest rest' : List Char} {b b' : Bool}
    (hc : skipBlanks cs = flagSpelling b ++ rest) :
    readFlag cs = .ok (b', rest') ↔ b' = b ∧ rest' = rest := by
  have hword : ∀ word : List Char, literal word (word ++ rest) = .ok rest :=
    fun word => literal_eq_ok_iff.mpr rfl
  cases b with
  | true =>
    have hc' : skipBlanks cs = 't' :: (['r', 'u', 'e'] ++ rest) := hc
    simp only [readFlag, hc', hword, lift, Except.map, if_true, Except.ok.injEq, Prod.mk.injEq]
    simp only [eq_comm]
  | false =>
    have hc' : skipBlanks cs = 'f' :: (['a', 'l', 's', 'e'] ++ rest) := hc
    simp only [readFlag, hc', hword, lift, Except.map, if_true, Except.ok.injEq, Prod.mk.injEq,
      Char.reduceEq, if_false]
    simp only [eq_comm]

theorem readFlag_front {cs rest rest' : List Char} {c : Char} {b : Bool}
    (hc : skipBlanks cs = c :: rest) (h : readFlag cs = .ok (b, rest')) : c = 't' ∨ c = 'f' := by
  simp only [readFlag, hc] at h
  split at h
  · exact .inl ‹_›
  · split at h
    · exact .inr ‹_›
    · cases h

/-- A value is read as a flag if it is one, and not otherwise. -/
theorem readFlag_value {v rest rest' : List Char} (hv : Value v) (ws : Blanks) {b : Bool} :
    readFlag (ws.chars ++ (v ++ rest)) = .ok (b, rest') ↔ flag? v = some b ∧ rest' = rest := by
  have other : ∀ (c : Char) (v' : List Char), v = c :: v' → isBlank c = false → c ≠ 't' → c ≠ 'f' →
      (readFlag (ws.chars ++ (v ++ rest)) = .ok (b, rest') ↔ flag? v = some b ∧ rest' = rest) := by
    rintro c v' rfl hblank ht hf
    have hfront : skipBlanks (ws.chars ++ (c :: v' ++ rest)) = c :: (v' ++ rest) := by
      rw [ws.skip]
      exact skipBlanks_cons hblank _
    constructor
    · exact fun hr => absurd (readFlag_front hfront hr) (not_or.mpr ⟨ht, hf⟩)
    · rintro ⟨hflag, -⟩
      simp [flag?, flagSpelling, ht, hf] at hflag
  cases hv with
  | flag b' =>
    have hfront : skipBlanks (ws.chars ++ (flagSpelling b' ++ rest)) = flagSpelling b' ++ rest := by
      rw [ws.skip]
      cases b' <;> exact skipBlanks_cons rfl _
    rw [readFlag_flag hfront]
    cases b' <;> simp [flag?, flagSpelling, eq_comm]
  | number n =>
    obtain ⟨c, v', hcons, hc⟩ := n.head
    rw [hcons] at other ⊢
    refine other c v' rfl ?_ ?_ ?_
    · rcases hc with rfl | hc
      · rfl
      · exact isBlank_of_isDigit hc
    · rintro rfl
      rcases hc with hc | hc <;> cases hc
    · rintro rfl
      rcases hc with hc | hc <;> cases hc
  | null => exact other _ _ rfl rfl (by decide) (by decide)
  | text => exact other _ _ rfl rfl (by decide) (by decide)
  | list => exact other _ _ rfl rfl (by decide) (by decide)
  | object => exact other _ _ rfl rfl (by decide) (by decide)

/-! ## Members -/

/-- What the name says; nothing if a half of a pair stands on its own in it. -/
def nameOf (x : Member) : Option String := (meaning? x.name).map String.ofList

/-- A field's value, met after there was `o` or nothing. -/
def gather? {α : Type} (read? : List Char → Option α) (o : Option α) (v : List Char) :
    Option (Option α) := if o.isSome then none else (read? v).map some

namespace Members

/-- The members met so far and one more, by its name. -/
def put? (m : Members) (v : List Char) (name : String) : Option Members :=
  if name = Field.interval.name then
    (gather? count? m.interval v).map fun o => { m with interval := o }
  else if name = Field.dispose.name then
    (gather? flag? m.dispose v).map fun o => { m with dispose := o }
  else some m

def add? (m : Members) (x : Member) : Option Members := (nameOf x).bind (m.put? x.item.value)

end Members

theorem map_eq_ok_iff {α β ε : Type} {r : Except ε α} {f : α → β} {b : β} :
    r.map f = .ok b ↔ ∃ a, r = .ok a ∧ f a = b := by
  cases r <;> simp [Except.map]

theorem readColon_spelled (gap : Blanks) (rest : List Char) :
    readColon (gap.chars ++ ':' :: rest) = .ok rest := by
  simp only [readColon, gap.skip, skipBlanks_cons (show isBlank ':' = false by decide), if_true]

theorem readValue_spelled (m : Members) (name : String) (gap : Blanks) (i : Item)
    (hv : Value i.value) {rest rest' : List Char} (h : Bounded rest) {m' : Members} :
    readValue m name (gap.chars ++ ':' :: (i.spelling ++ rest)) = .ok (m', rest') ↔
      m.put? i.value name = some m' ∧ rest' = i.after.chars ++ rest := by
  have hspelled : i.spelling ++ rest = i.before.chars ++ (i.value ++ (i.after.chars ++ rest)) := by
    simp [Item.spelling]
  have hbound := i.after.bounded h
  unfold readValue Members.put? gather?
  rw [readColon_spelled, hspelled]
  split
  · split
    · simp
    · simp only [map_eq_ok_iff, Prod.exists, readCount_value hv i.before hbound,
        Option.map_map, Option.map_eq_some_iff, Prod.mk.injEq]
      constructor
      · rintro ⟨n, r, ⟨hn, rfl⟩, hm, rfl⟩
        exact ⟨⟨n, hn, hm⟩, rfl⟩
      · rintro ⟨⟨n, hn, hm⟩, rfl⟩
        exact ⟨n, _, ⟨hn, rfl⟩, hm, rfl⟩
  · split
    · split
      · simp
      · simp only [map_eq_ok_iff, Prod.exists, readFlag_value hv i.before, Option.map_map,
          Option.map_eq_some_iff, Prod.mk.injEq]
        constructor
        · rintro ⟨n, r, ⟨hn, rfl⟩, hm, rfl⟩
          exact ⟨⟨n, hn, hm⟩, rfl⟩
        · rintro ⟨⟨n, hn, hm⟩, rfl⟩
          exact ⟨n, _, ⟨hn, rfl⟩, hm, rfl⟩
    · simp only [hv.skip i.before hbound, lift, Except.map, Except.ok.injEq, Prod.mk.injEq,
        Option.some.injEq]
      simp only [eq_comm]

theorem readMember_spelled (m : Members) (x : Member) (hv : Value x.item.value)
    {rest : List Char} (h : Bounded rest) (m' : Members) (rest' : List Char) :
    readMember m (x.named ++ rest) = .ok (m', rest') ↔
      m.add? x = some m' ∧ rest' = x.item.after.chars ++ rest := by
  have hspelled : x.named ++ rest =
      spelled x.name ++ '"' :: (x.gap.chars ++ ':' :: (x.item.spelling ++ rest)) := by
    simp [Member.named]
  unfold readMember Members.add? nameOf
  rw [hspelled, readText_spelled]
  cases meaning? x.name with
  | none => simp
  | some name => exact readValue_spelled m (String.ofList name) x.gap x.item hv h

theorem readMember_unspelled {m : Members} {x : Member} {cs rest : List Char}
    (h : ∀ m' rest', readMember m cs = .ok (m', rest') ↔ m.add? x = some m' ∧ rest' = rest)
    (hadd : m.add? x = none) : ∃ f, readMember m cs = .error f := by
  cases hr : readMember m cs with
  | error f => exact ⟨f, rfl⟩
  | ok r => cases hadd.symm.trans ((h r.1 r.2).mp hr).1

section

variable {m m' : Members} {cs rest rest' rest'' : List Char}

theorem readMembers_error {f : Fault} (h : readMember m cs = .error f) :
    readMembers m cs = .error f := by
  rw [readMembers]
  split
  · rename_i hf
    cases h.symm.trans hf
    rfl
  · rename_i hr
    cases h.symm.trans hr

theorem readMembers_last (h : readMember m cs = .ok (m', rest)) (hc : skipBlanks rest = '}' :: rest') :
    readMembers m cs = .ok (m', rest') := by
  rw [readMembers]
  split
  · rename_i hf
    cases h.symm.trans hf
  · rename_i hr
    cases h.symm.trans hr
    split
    · rename_i hn
      cases hc.symm.trans hn
    · rename_i hd
      cases hc.symm.trans hd
      rw [if_pos rfl]

theorem readMembers_more (h : readMember m cs = .ok (m', rest)) (hc : skipBlanks rest = ',' :: rest')
    (hq : skipBlanks rest' = '"' :: rest'') : readMembers m cs = readMembers m' rest'' := by
  rw [readMembers]
  split
  · rename_i hf
    cases h.symm.trans hf
  · rename_i hr
    cases h.symm.trans hr
    split
    · rename_i hn
      cases hc.symm.trans hn
    · rename_i hd
      cases hc.symm.trans hd
      rw [if_neg (by decide), if_pos rfl]
      split
      · rename_i hn
        cases hq.symm.trans hn
      · rename_i hd
        cases hq.symm.trans hd
        rw [if_pos rfl]

end

/-- The members of an object are read one by one. -/
theorem readMembers_spelled (x : Member) (xs : List Member)
    (hv : ∀ y ∈ x :: xs, Value y.item.value) (m : Members) {rest rest' : List Char} {m' : Members} :
    readMembers m (x.named ++ ((xs.map Member.spelling).flatMap (',' :: ·) ++ '}' :: rest)) =
      .ok (m', rest') ↔ (x :: xs).foldlM Members.add? m = some m' ∧ rest' = rest := by
  induction xs generalizing x m with
  | nil =>
    have hbound : Bounded ('}' :: rest) := bounded_cons (by simp) rest
    have hread := readMember_spelled m x (hv x (List.mem_cons_self ..)) hbound
    cases hadd : m.add? x with
    | none =>
      obtain ⟨f, hf⟩ := readMember_unspelled hread hadd
      simp [readMembers_error hf, hadd]
    | some m₁ =>
      have hclose : skipBlanks (x.item.after.chars ++ '}' :: rest) = '}' :: rest := by
        rw [x.item.after.skip]
        exact skipBlanks_cons (by decide) rest
      rw [List.map_nil, List.flatMap_nil, List.nil_append,
        readMembers_last ((hread m₁ _).mpr ⟨hadd, rfl⟩) hclose]
      simp [hadd, eq_comm]
  | cons y ys ih =>
    have hbound : Bounded (((y :: ys).map Member.spelling).flatMap (',' :: ·) ++ '}' :: rest) :=
      bounded_closing .object _ rest
    have hread := readMember_spelled m x (hv x (List.mem_cons_self ..)) hbound
    cases hadd : m.add? x with
    | none =>
      obtain ⟨f, hf⟩ := readMember_unspelled hread hadd
      simp only [readMembers_error hf, List.foldlM_cons, hadd]
      simp
    | some m₁ =>
      have hcomma : skipBlanks (x.item.after.chars ++ (((y :: ys).map Member.spelling).flatMap
          (',' :: ·) ++ '}' :: rest)) = ',' :: (y.spelling ++
            ((ys.map Member.spelling).flatMap (',' :: ·) ++ '}' :: rest)) := by
        rw [x.item.after.skip]
        simp [skipBlanks_cons (show isBlank ',' = false by decide)]
      have hfold : (x :: y :: ys).foldlM Members.add? m = (y :: ys).foldlM Members.add? m₁ := by
        rw [List.foldlM_cons, hadd]
        rfl
      rw [readMembers_more ((hread m₁ _).mpr ⟨hadd, rfl⟩) hcomma (y.front _), hfold]
      exact ih y (fun z hz => hv z (List.mem_cons_of_mem _ hz)) m₁

/-- The values of a field, in order. -/
def valuesOf (f : Field) (xs : List Member) : List (List Char) :=
  xs.filterMap fun x => if nameOf x = some f.name then some x.item.value else none

theorem valuesOf_cons (f : Field) (x : Member) (xs : List Member) : valuesOf f (x :: xs) =
    if nameOf x = some f.name then x.item.value :: valuesOf f xs else valuesOf f xs := by
  unfold valuesOf
  rw [List.filterMap_cons]
  split <;> split <;> simp_all

theorem foldlM_gather?_of_some {α : Type} {read? : List Char → Option α} {vs : List (List Char)}
    {a : α} {o : Option α} :
    vs.foldlM (gather? read?) (some a) = some o ↔ vs = [] ∧ o = some a := by
  cases vs with
  | nil => simp [eq_comm]
  | cons v vs => simp [gather?]

/-- A field is there at most once. -/
theorem foldlM_gather?_iff {α : Type} {read? : List Char → Option α} {vs : List (List Char)}
    {o : Option α} : vs.foldlM (gather? read?) none = some o ↔
      (vs = [] ∧ o = none) ∨ ∃ v a, vs = [v] ∧ read? v = some a ∧ o = some a := by
  cases vs with
  | nil => simp [eq_comm]
  | cons v vs =>
    cases hr : read? v with
    | none => simp [gather?, hr]
    | some a =>
      have hfirst : (v :: vs).foldlM (gather? read?) none = vs.foldlM (gather? read?) (some a) := by
        rw [List.foldlM_cons]
        simp [gather?, hr]
      rw [hfirst, foldlM_gather?_of_some]
      constructor
      · rintro ⟨rfl, rfl⟩
        exact .inr ⟨v, a, rfl, hr, rfl⟩
      · rintro (⟨h, -⟩ | ⟨v', a', h, hr', rfl⟩)
        · cases h
        · cases h
          cases hr.symm.trans hr'
          exact ⟨rfl, rfl⟩

/-- Every field is gathered for itself. -/
theorem foldlM_add?_iff (xs : List Member) (m m' : Members) :
    xs.foldlM Members.add? m = some m' ↔ (∀ x ∈ xs, (nameOf x).isSome = true) ∧
      (valuesOf .interval xs).foldlM (gather? count?) m.interval = some m'.interval ∧
      (valuesOf .dispose xs).foldlM (gather? flag?) m.dispose = some m'.dispose := by
  induction xs generalizing m with
  | nil =>
    obtain ⟨interval, dispose⟩ := m
    obtain ⟨interval', dispose'⟩ := m'
    simp [valuesOf]
  | cons x xs ih =>
    have hne : Field.dispose.name ≠ Field.interval.name := by decide
    rw [List.foldlM_cons, valuesOf_cons, valuesOf_cons]
    cases hname : nameOf x with
    | none => simp [Members.add?, hname]
    | some name =>
      have hadd : m.add? x = m.put? x.item.value name := by simp [Members.add?, hname]
      have hnamed : (∀ y ∈ x :: xs, (nameOf y).isSome = true) ↔ ∀ y ∈ xs, (nameOf y).isSome = true := by
        simp [hname]
      rw [hnamed, hadd]
      unfold Members.put?
      by_cases hi : name = Field.interval.name
      · subst hi
        rw [if_pos rfl, if_pos rfl, if_neg (fun h => hne (Option.some.inj h).symm), List.foldlM_cons]
        cases gather? count? m.interval x.item.value with
        | none => simp
        | some o => exact ih { m with interval := o }
      · by_cases hd : name = Field.dispose.name
        · subst hd
          rw [if_neg hi, if_pos rfl, if_neg (fun h => hi (Option.some.inj h)), if_pos rfl,
            List.foldlM_cons]
          cases gather? flag? m.dispose x.item.value with
          | none => simp
          | some o => exact ih { m with dispose := o }
        · rw [if_neg hi, if_neg hd, if_neg (fun h => hi (Option.some.inj h)),
            if_neg (fun h => hd (Option.some.inj h))]
          exact ih m

/-! ## Documents -/

/-- An object with blanks around it. -/
structure Document where
  before : Blanks
  /-- What stands between the braces if there are no members. -/
  blank : Blanks
  members : List Member
  after : Blanks
  valued : ∀ x ∈ members, Value x.item.value

namespace Document

variable (d : Document)

def spelling : List Char :=
  d.before.chars ++ '{' :: (inside d.blank (d.members.map Member.spelling) ++ '}' :: d.after.chars)

def text : String := String.ofList d.spelling

def values (f : Field) : List (List Char) := valuesOf f d.members

/-- What the document says a configuration is. -/
structure Means (c : Config) : Prop where
  named : ∀ x ∈ d.members, (nameOf x).isSome = true
  interval : (d.values .interval = [] ∧ c.intervalMs = Config.default.intervalMs) ∨
    ∃ v, d.values .interval = [v] ∧ count? v = some c.intervalMs
  dispose : (d.values .dispose = [] ∧ c.dispose = Config.default.dispose) ∨
    ∃ v, d.values .dispose = [v] ∧ flag? v = some c.dispose

end Document

theorem readObject_spelled (ws : Blanks) (xs : List Member) (hv : ∀ x ∈ xs, Value x.item.value)
    {rest rest' : List Char} {m : Members} :
    readObject (inside ws (xs.map Member.spelling) ++ '}' :: rest) = .ok (m, rest') ↔
      xs.foldlM Members.add? .none = some m ∧ rest' = rest := by
  unfold readObject
  cases xs with
  | nil =>
    have hclose : skipBlanks (inside ws [] ++ '}' :: rest) = '}' :: rest := by
      unfold inside
      rw [ws.skip]
      exact skipBlanks_cons (by decide) rest
    simp [hclose, eq_comm]
  | cons x xs =>
    have hfront : inside ws ((x :: xs).map Member.spelling) ++ '}' :: rest =
        x.spelling ++ ((xs.map Member.spelling).flatMap (',' :: ·) ++ '}' :: rest) := by
      simp [inside]
    rw [hfront, x.front]
    simp only [Char.reduceEq, if_false, if_true]
    exact readMembers_spelled x xs hv .none

theorem read_document (d : Document) (c : Config) : read d.text = .ok c ↔
    ∃ m, d.members.foldlM Members.add? .none = some m ∧ m.config = c := by
  have hfront : skipBlanks d.spelling =
      '{' :: (inside d.blank (d.members.map Member.spelling) ++ '}' :: d.after.chars) := by
    unfold Document.spelling
    rw [d.before.skip]
    exact skipBlanks_cons (by decide) _
  have hend : skipBlanks d.after.chars = [] := by
    have hskip := d.after.skip []
    rw [List.append_nil] at hskip
    exact hskip
  have hobject : ∀ r, readFront d.text.toList = .ok r ↔
      d.members.foldlM Members.add? .none = some r.1 ∧ r.2 = d.after.chars := by
    intro r
    unfold Document.text readFront
    simp only [String.toList_ofList, hfront, if_true]
    exact readObject_spelled d.blank d.members d.valued
  unfold read
  cases hr : readFront d.text.toList with
  | error f =>
    refine ⟨nofun, ?_⟩
    rintro ⟨m, hm, -⟩
    have hok := (hobject (m, d.after.chars)).mpr ⟨hm, rfl⟩
    cases hr.symm.trans hok
  | ok r =>
    obtain ⟨hm, hrest⟩ := (hobject r).mp hr
    show (if (skipBlanks r.2).isEmpty then Except.ok r.1.config
      else Except.error Fault.malformed) = .ok c ↔ _
    simp [hrest, hend, hm]

/-- A document is read as what it means, if it means anything. -/
theorem read_document_iff (d : Document) (c : Config) : read d.text = .ok c ↔ d.Means c := by
  have chosen : ∀ {α : Type} {read? : List Char → Option α} {vs : List (List Char)} {a b : α},
      (∃ o, vs.foldlM (gather? read?) none = some o ∧ o.getD a = b) ↔
        (vs = [] ∧ b = a) ∨ ∃ v, vs = [v] ∧ read? v = some b := by
    intro α read? vs a b
    constructor
    · rintro ⟨o, ho, rfl⟩
      rcases foldlM_gather?_iff.mp ho with ⟨rfl, rfl⟩ | ⟨v, b, rfl, hv, rfl⟩
      · exact .inl ⟨rfl, rfl⟩
      · exact .inr ⟨v, rfl, hv⟩
    · rintro (⟨rfl, rfl⟩ | ⟨v, rfl, hv⟩)
      · exact ⟨none, rfl, rfl⟩
      · exact ⟨some b, foldlM_gather?_iff.mpr (.inr ⟨v, b, rfl, hv, rfl⟩), rfl⟩
  rw [read_document]
  constructor
  · rintro ⟨m, hm, rfl⟩
    obtain ⟨hnamed, hi, hd⟩ := (foldlM_add?_iff ..).mp hm
    exact ⟨hnamed, chosen.mp ⟨m.interval, hi, rfl⟩, chosen.mp ⟨m.dispose, hd, rfl⟩⟩
  · rintro ⟨hnamed, hi, hd⟩
    obtain ⟨interval, hi, hi'⟩ := chosen.mpr hi
    obtain ⟨dispose, hd, hd'⟩ := chosen.mpr hd
    refine ⟨⟨interval, dispose⟩, (foldlM_add?_iff ..).mpr ⟨hnamed, hi, hd⟩, ?_⟩
    unfold Members.config
    rw [hi', hd']

end Config

end ExpiringCache
