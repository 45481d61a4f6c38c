import ExpiringCache.Proofs.Spelling

/-!
# The grammar of JSON

A list or an object consists of parts with commas between them, or of blanks alone. A part of a list is
a value between blanks, and one of an object has a name and a colon before it. Every value is left out
exactly, to any depth, and whatever is left out is a value.
-/

namespace ExpiringCache.Json

/-- A value between blanks. -/
structure Item where
  before : Blanks
  value : List Char
  after : Blanks

def Item.spelling (i : Item) : List Char := i.before.chars ++ (i.value ++ i.after.chars)

structure Member where
  before : Blanks
  name : List Token
  gap : Blanks
  item : Item

/-- The text after the quote that opens the name, and the value. -/
def Member.named (m : Member) : List Char :=
  spelled m.name ++ '"' :: (m.gap.chars ++ ':' :: m.item.spelling)

def Member.spelling (m : Member) : List Char := m.before.chars ++ '"' :: m.named

/-- What stands between brackets. -/
def inside (ws : Blanks) : List (List Char) → List Char
  | [] => ws.chars
  | p :: ps => p ++ ps.flatMap (',' :: ·)

def flagSpelling : Bool → List Char
  | true => ['t', 'r', 'u', 'e']
  | false => ['f', 'a', 'l', 's', 'e']

inductive Value : List Char → Prop
  | null : Value ['n', 'u', 'l', 'l']
  | flag (b : Bool) : Value (flagSpelling b)
  | number (n : Number) : Value n.spelling
  | text (ts : List Token) : Value ('"' :: (spelled ts ++ ['"']))
  | list (ws : Blanks) (items : List Item) (h : ∀ i ∈ items, Value i.value) :
      Value ('[' :: (inside ws (items.map Item.spelling) ++ [']']))
  | object (ws : Blanks) (members : List Member) (h : ∀ m ∈ members, Value m.item.value) :
      Value ('{' :: (inside ws (members.map Member.spelling) ++ ['}']))

def Bracket.opening : Bracket → Char
  | list => '['
  | object => '{'

theorem opens?_opening (b : Bracket) : opens? b.opening = some (b, b.inside) := by cases b <;> rfl

theorem isBlank_opening (b : Bracket) : isBlank b.opening = false := by cases b <;> rfl

theorem isBlank_closing (b : Bracket) : isBlank b.closing = false := by cases b <;> rfl

theorem opens?_eq_some {c : Char} {b : Bracket} {place : Place} (h : opens? c = some (b, place)) :
    c = b.opening ∧ place = b.inside := by
  unfold opens? at h
  split at h
  · rename_i hc
    cases h
    exact ⟨hc, rfl⟩
  · split at h
    · rename_i hc
      cases h
      exact ⟨hc, rfl⟩
    · cases h

/-! ## Steps -/

section

variable {outer : List Bracket} {b : Bracket} {place : Place} {cs rest rest' : List Char} {c : Char}

theorem skipFrom_scalar (hc : skipBlanks cs = c :: rest) (ho : opens? c = none)
    (hs : skipScalar c rest = .ok rest') :
    skipFrom outer .value cs = skipFrom outer .afterValue rest' := by
  rw [skipFrom]
  split
  · rename_i h
    cases hc.symm.trans h
  · rename_i h
    cases hc.symm.trans h
    split
    · rename_i hopen
      cases ho.symm.trans hopen
    · split
      · rename_i hf
        cases hs.symm.trans hf
      · rename_i hr
        cases hs.symm.trans hr
        rfl

theorem skipFrom_empty {place : Place} (hc : skipBlanks cs = c :: rest)
    (ho : opens? c = some (b, place)) (he : skipBlanks rest = b.closing :: rest') :
    skipFrom outer .value cs = skipFrom outer .afterValue rest' := by
  rw [skipFrom]
  split
  · rename_i h
    cases hc.symm.trans h
  · rename_i h
    cases hc.symm.trans h
    split
    · rename_i hopen
      cases ho.symm.trans hopen
      split
      · rename_i hn
        cases he.symm.trans hn
      · rename_i hd
        cases he.symm.trans hd
        rw [if_pos rfl]
    · rename_i hopen
      cases ho.symm.trans hopen

theorem skipFrom_open {place : Place} {d : Char} (hc : skipBlanks cs = c :: rest)
    (ho : opens? c = some (b, place)) (he : skipBlanks rest = d :: rest') (hd : d ≠ b.closing) :
    skipFrom outer .value cs = skipFrom (b :: outer) place rest := by
  rw [skipFrom]
  split
  · rename_i h
    cases hc.symm.trans h
  · rename_i h
    cases hc.symm.trans h
    split
    · rename_i hopen
      cases ho.symm.trans hopen
      split
      · rename_i hn
        cases he.symm.trans hn
      · rename_i hd'
        cases he.symm.trans hd'
        rw [if_neg hd]
    · rename_i hopen
      cases ho.symm.trans hopen

theorem skipFrom_member (hc : skipBlanks cs = '"' :: rest) (hn : skipName rest = .ok rest') :
    skipFrom outer .member cs = skipFrom outer .value rest' := by
  rw [skipFrom]
  split
  · rename_i h
    cases hc.symm.trans h
  · rename_i h
    cases hc.symm.trans h
    rw [if_pos rfl]
    split
    · rename_i hf
      cases hn.symm.trans hf
    · rename_i hr
      cases hn.symm.trans hr
      rfl

theorem skipFrom_comma (hc : skipBlanks cs = ',' :: rest) :
    skipFrom (b :: outer) .afterValue cs = skipFrom (b :: outer) b.inside rest := by
  rw [skipFrom]
  split
  · rename_i h
    cases hc.symm.trans h
  · rename_i h
    cases hc.symm.trans h
    rw [if_pos rfl]

theorem skipFrom_close (hc : skipBlanks cs = b.closing :: rest) :
    skipFrom (b :: outer) .afterValue cs = skipFrom outer .afterValue rest := by
  rw [skipFrom]
  split
  · rename_i h
    cases hc.symm.trans h
  · rename_i h
    cases hc.symm.trans h
    have hne : b.closing ≠ ',' := by cases b <;> decide
    rw [if_neg hne, if_pos rfl]

end

/-! ## Values are left out exactly -/

theorem Number.head (n : Number) : ∃ c rest, n.spelling = c :: rest ∧ (c = '-' ∨ c.isDigit = true) := by
  unfold spelling
  split
  · exact ⟨'-', _, rfl, .inl rfl⟩
  · obtain ⟨c, rest, -, hc, heq⟩ := n.whole.head n.tail
    exact ⟨c, _, heq, .inr hc⟩

/-- A value begins with none of these. -/
theorem Value.head {v : List Char} (h : Value v) :
    ∃ c v', v = c :: v' ∧ isBlank c = false ∧ c ≠ ']' ∧ c ≠ '}' := by
  cases h with
  | number n =>
    obtain ⟨c, rest, heq, hc⟩ := n.head
    refine ⟨c, rest, heq, ?_⟩
    rcases hc with rfl | hc
    · decide
    · refine ⟨isBlank_of_isDigit hc, ?_, ?_⟩ <;> rintro rfl <;> cases hc
  | flag b => cases b <;> exact ⟨_, _, rfl, by decide⟩
  | _ => exact ⟨_, _, rfl, by decide⟩

theorem skipScalar_digit {c : Char} (hc : c.isDigit = true) (cs : List Char) :
    opens? c = none ∧ skipScalar c cs = skipNumber (c :: cs) := by
  have hne := ne_of_isDigit hc
  simp [opens?, skipScalar, hc, hne '[' rfl, hne '{' rfl, hne 'n' rfl, hne 't' rfl, hne 'f' rfl,
    hne '"' rfl, hne '-' rfl]

theorem Number.skipScalar (n : Number) {rest : List Char} (h : Bounded rest) :
    ∃ c cs, n.spelling ++ rest = c :: cs ∧ opens? c = none ∧ Json.skipScalar c cs = .ok rest := by
  have hskip := n.skip h
  unfold spelling
  split
  · exact ⟨'-', n.magnitude ++ rest, rfl, rfl, hskip⟩
  · obtain ⟨c, ds, -, hc, heq⟩ := n.whole.head (n.tail ++ rest)
    unfold magnitude at hskip ⊢
    rw [List.append_assoc, heq] at hskip ⊢
    obtain ⟨hopen, hdigit⟩ := skipScalar_digit hc (ds ++ (n.tail ++ rest))
    exact ⟨c, _, rfl, hopen, hdigit.trans hskip⟩

/-- A part is passed up to the blanks at its end, and is not taken for the closing bracket. -/
structure Passed (b : Bracket) (p : List Char) : Prop where
  head : ∃ d p', d ≠ b.closing ∧ ∀ rest, skipBlanks (p ++ rest) = d :: (p' ++ rest)
  steps : ∃ ws : Blanks, ∀ outer rest, Bounded rest →
    skipFrom (b :: outer) b.inside (p ++ rest) = skipFrom (b :: outer) .afterValue (ws.chars ++ rest)

theorem bounded_closing (b : Bracket) (ps : List (List Char)) (rest : List Char) :
    Bounded (ps.flatMap (',' :: ·) ++ b.closing :: rest) := by
  cases ps with
  | cons p ps => exact bounded_cons (by simp) _
  | nil => cases b <;> exact bounded_cons (by simp [Bracket.closing]) _

theorem skipFrom_parts {b : Bracket} {ps : List (List Char)} (h : ∀ p ∈ ps, Passed b p)
    (outer : List Bracket) (rest : List Char) (ws : Blanks) :
    skipFrom (b :: outer) .afterValue (ws.chars ++ (ps.flatMap (',' :: ·) ++ b.closing :: rest)) =
      skipFrom outer .afterValue rest := by
  induction ps generalizing ws with
  | nil =>
    refine skipFrom_close ?_
    rw [ws.skip]
    exact skipBlanks_cons (isBlank_closing b) rest
  | cons p ps ih =>
    obtain ⟨ws', hsteps⟩ := (h p (List.mem_cons_self ..)).steps
    have hcomma : skipBlanks (ws.chars ++ ((p :: ps).flatMap (',' :: ·) ++ b.closing :: rest)) =
        ',' :: (p ++ (ps.flatMap (',' :: ·) ++ b.closing :: rest)) := by
      rw [ws.skip]
      simp [skipBlanks_cons (show isBlank ',' = false by decide)]
    rw [skipFrom_comma hcomma, hsteps outer _ (bounded_closing b ps rest)]
    exact ih (fun q hq => h q (List.mem_cons_of_mem _ hq)) ws'

theorem skipFrom_bracket {b : Bracket} {cs rest : List Char} {ps : List (List Char)} {ws : Blanks}
    (h : ∀ p ∈ ps, Passed b p) (hfront : skipBlanks cs = b.opening :: (inside ws ps ++ b.closing :: rest))
    (outer : List Bracket) : skipFrom outer .value cs = skipFrom outer .afterValue rest := by
  cases ps with
  | nil =>
    refine skipFrom_empty hfront (opens?_opening b) ?_
    unfold inside
    rw [ws.skip]
    exact skipBlanks_cons (isBlank_closing b) rest
  | cons p ps =>
    obtain ⟨⟨d, p', hd, hhead⟩, ws', hsteps⟩ := h p (List.mem_cons_self ..)
    have hnext := hhead (ps.flatMap (',' :: ·) ++ b.closing :: rest)
    unfold inside at hfront
    rw [List.append_assoc] at hfront
    rw [skipFrom_open hfront (opens?_opening b) hnext hd, hsteps outer _ (bounded_closing b ps rest)]
    exact skipFrom_parts (fun q hq => h q (List.mem_cons_of_mem _ hq)) outer rest ws'

/-- The value is left out wherever it stands, with blanks before it. -/
def Skipped (v : List Char) : Prop := ∀ (ws : Blanks) outer rest, Bounded rest →
  skipFrom outer .value (ws.chars ++ (v ++ rest)) = skipFrom outer .afterValue rest

theorem Item.passed (i : Item) (hv : Value i.value) (h : Skipped i.value) :
    Passed .list i.spelling := by
  obtain ⟨c, v', heq, hblank, hc, -⟩ := hv.head
  refine ⟨⟨c, v' ++ i.after.chars, hc, fun rest => ?_⟩, i.after, fun outer rest hrest => ?_⟩
  · unfold spelling
    rw [heq, List.append_assoc, i.before.skip]
    simp [skipBlanks_cons hblank]
  · unfold spelling
    rw [List.append_assoc, List.append_assoc]
    exact h i.before _ _ (i.after.bounded hrest)

theorem skipName_spelled (m : Member) (rest : List Char) :
    skipName (m.named ++ rest) = .ok (m.item.spelling ++ rest) := by
  have htext := skipText_spelled m.name (m.gap.chars ++ (':' :: (m.item.spelling ++ rest)))
  unfold skipName Member.named
  rw [List.append_assoc, List.cons_append, List.append_assoc, List.cons_append, htext]
  simp only [m.gap.skip, skipBlanks_cons (show isBlank ':' = false by decide), if_true]

theorem Member.front (m : Member) (rest : List Char) :
    skipBlanks (m.spelling ++ rest) = '"' :: (m.named ++ rest) := by
  unfold spelling
  rw [List.append_assoc, m.before.skip]
  exact skipBlanks_cons (by decide) _

theorem Member.passed (m : Member) (h : Skipped m.item.value) : Passed .object m.spelling := by
  refine ⟨⟨'"', m.named, by decide, m.front⟩, m.item.after, fun outer rest hrest => ?_⟩
  refine (skipFrom_member (m.front rest) (skipName_spelled m rest)).trans ?_
  unfold Item.spelling
  rw [List.append_assoc, List.append_assoc]
  exact h m.item.before _ _ (m.item.after.bounded hrest)

theorem skipped_scalar {v : List Char} (h : ∀ rest, Bounded rest → ∃ c cs, v ++ rest = c :: cs ∧
    isBlank c = false ∧ opens? c = none ∧ skipScalar c cs = .ok rest) : Skipped v := by
  intro ws outer rest hrest
  obtain ⟨c, cs, heq, hblank, hopen, hskip⟩ := h rest hrest
  refine skipFrom_scalar ?_ hopen hskip
  rw [ws.skip, heq]
  exact skipBlanks_cons hblank cs

theorem skipped_bracket {b : Bracket} {ps : List (List Char)} (ws : Blanks)
    (h : ∀ p ∈ ps, Passed b p) : Skipped (b.opening :: (inside ws ps ++ [b.closing])) := by
  intro before outer rest _
  have hfront : skipBlanks (before.chars ++ (b.opening :: (inside ws ps ++ [b.closing]) ++ rest)) =
      b.opening :: (inside ws ps ++ b.closing :: rest) := by
    rw [before.skip, List.cons_append, skipBlanks_cons (isBlank_opening b), List.append_assoc]
    rfl
  exact skipFrom_bracket h hfront outer

/-- A value is left out exactly, whatever it holds. -/
theorem Value.skipped {v : List Char} (h : Value v) : Skipped v := by
  induction h with
  | null => exact skipped_scalar fun rest _ => ⟨_, _, rfl, rfl, rfl, literal_eq_ok_iff.mpr rfl⟩
  | flag b =>
    apply skipped_scalar
    intro rest _
    cases b <;> exact ⟨_, _, rfl, rfl, rfl, literal_eq_ok_iff.mpr rfl⟩
  | number n =>
    apply skipped_scalar
    intro rest hrest
    obtain ⟨c, cs, heq, hopen, hskip⟩ := n.skipScalar hrest
    obtain ⟨d, v', hv, hblank, -⟩ := (Value.number n).head
    rw [hv] at heq
    obtain ⟨rfl, -⟩ := List.cons.inj heq
    exact ⟨d, cs, by rw [hv]; exact heq, hblank, hopen, hskip⟩
  | text ts =>
    apply skipped_scalar
    intro rest _
    have htext : skipScalar '"' (spelled ts ++ '"' :: rest) = .ok rest := skipText_spelled ts rest
    exact ⟨'"', spelled ts ++ '"' :: rest, by simp, rfl, rfl, htext⟩
  | list ws items h ih =>
    refine skipped_bracket (b := .list) ws fun p hp => ?_
    obtain ⟨i, hi, rfl⟩ := List.mem_map.mp hp
    exact i.passed (h i hi) (ih i hi)
  | object ws members h ih =>
    refine skipped_bracket (b := .object) ws fun p hp => ?_
    obtain ⟨m, hm, rfl⟩ := List.mem_map.mp hp
    exact m.passed (ih m hm)

theorem Value.skip {v : List Char} (h : Value v) (ws : Blanks) {rest : List Char}
    (hrest : Bounded rest) : skipValue (ws.chars ++ (v ++ rest)) = .ok rest := by
  unfold skipValue
  rw [h.skipped ws [] rest hrest, skipFrom]

/-! ## What is left out is a value -/

/-- What there is from the end of a value to where all the brackets are closed that are open around
it. -/
inductive Closes : List Bracket → List Char → Prop
  | done : Closes [] []
  | close {b : Bracket} {outer : List Bracket} {s : List Char} (ws : Blanks) (h : Closes outer s) :
      Closes (b :: outer) (ws.chars ++ b.closing :: s)
  | item {outer : List Bracket} {v s : List Char} (ws before : Blanks) (hv : Value v)
      (h : Closes (.list :: outer) s) :
      Closes (.list :: outer) (ws.chars ++ ',' :: (before.chars ++ (v ++ s)))
  | member {outer : List Bracket} {v s : List Char} (ws before gap between : Blanks)
      (name : List Token) (hv : Value v) (h : Closes (.object :: outer) s) :
      Closes (.object :: outer) (ws.chars ++ ',' :: (before.chars ++ '"' :: (spelled name ++
        '"' :: (gap.chars ++ ':' :: (between.chars ++ (v ++ s))))))

namespace Closes

/-- The rest of a list, once its first value has been read. -/
theorem list {outer : List Bracket} {t : List Char} (h : Closes (.list :: outer) t) :
    ∃ (after : Blanks) (items : List Item) (s : List Char), (∀ i ∈ items, Value i.value) ∧
      t = after.chars ++ ((items.map Item.spelling).flatMap (',' :: ·) ++ ']' :: s) ∧
      Closes outer s := by
  generalize hstack : Bracket.list :: outer = stack at h
  induction h with
  | done => cases hstack
  | close ws h =>
    cases hstack
    exact ⟨ws, [], _, by simp, rfl, h⟩
  | @item _ v _ ws before hv _ ih =>
    cases hstack
    obtain ⟨after, items, s, hitems, rfl, hs⟩ := ih rfl
    refine ⟨ws, ⟨before, v, after⟩ :: items, s, List.forall_mem_cons.mpr ⟨hv, hitems⟩, ?_, hs⟩
    simp [Item.spelling]
  | member => cases hstack

/-- The rest of an object, once its first member has been read. -/
theorem object {outer : List Bracket} {t : List Char} (h : Closes (.object :: outer) t) :
    ∃ (after : Blanks) (members : List Member) (s : List Char),
      (∀ m ∈ members, Value m.item.value) ∧
      t = after.chars ++ ((members.map Member.spelling).flatMap (',' :: ·) ++ '}' :: s) ∧
      Closes outer s := by
  generalize hstack : Bracket.object :: outer = stack at h
  induction h with
  | done => cases hstack
  | close ws h =>
    cases hstack
    exact ⟨ws, [], _, by simp, rfl, h⟩
  | item => cases hstack
  | @member _ v _ ws before gap between name hv _ ih =>
    cases hstack
    obtain ⟨after, members, s, hmembers, rfl, hs⟩ := ih rfl
    refine ⟨ws, ⟨before, name, gap, ⟨between, v, after⟩⟩ :: members, s,
      List.forall_mem_cons.mpr ⟨hv, hmembers⟩, ?_, hs⟩
    simp [Member.spelling, Member.named, Item.spelling]

end Closes

/-- A value, and what closes the brackets around it. -/
def Wanted (outer : List Bracket) (s : List Char) : Prop :=
  ∃ (before : Blanks) (v t : List Char), s = before.chars ++ (v ++ t) ∧ Value v ∧ Closes outer t

/-- A member, and what closes the brackets around it. -/
def WantedMember (outer : List Bracket) (s : List Char) : Prop :=
  ∃ (before gap : Blanks) (name : List Token) (t : List Char),
    s = before.chars ++ '"' :: (spelled name ++ '"' :: (gap.chars ++ ':' :: t)) ∧ Wanted outer t

def Wants (outer : List Bracket) : Place → List Char → Prop
  | .value, s => Wanted outer s
  | .member, s => WantedMember outer s
  | .afterValue, s => Closes outer s

theorem Wanted.list {outer : List Bracket} {s : List Char} (ws : Blanks)
    (h : Wanted (.list :: outer) s) : Wanted outer (ws.chars ++ '[' :: s) := by
  obtain ⟨before, v, t, rfl, hv, ht⟩ := h
  obtain ⟨after, items, s, hitems, rfl, hs⟩ := ht.list
  refine ⟨ws, _, s, ?_, .list .none (⟨before, v, after⟩ :: items)
    (List.forall_mem_cons.mpr ⟨hv, hitems⟩), hs⟩
  simp [inside, Item.spelling]

theorem WantedMember.object {outer : List Bracket} {s : List Char} (ws : Blanks)
    (h : WantedMember (.object :: outer) s) : Wanted outer (ws.chars ++ '{' :: s) := by
  obtain ⟨before, gap, name, t, rfl, between, v, t, rfl, hv, ht⟩ := h
  obtain ⟨after, members, s, hmembers, rfl, hs⟩ := ht.object
  refine ⟨ws, _, s, ?_, .object .none (⟨before, name, gap, ⟨between, v, after⟩⟩ :: members)
    (List.forall_mem_cons.mpr ⟨hv, hmembers⟩), hs⟩
  simp [inside, Member.spelling, Member.named, Item.spelling]

theorem skipName_sound {cs rest : List Char} (h : skipName cs = .ok rest) :
    ∃ (name : List Token) (gap : Blanks), cs = spelled name ++ '"' :: (gap.chars ++ ':' :: rest) := by
  unfold skipName at h
  split at h
  · cases h
  · rename_i rest' htext
    obtain ⟨name, rfl⟩ := skipText_sound htext
    split at h
    · cases h
    · rename_i c rest'' hc
      split at h
      · rename_i hcolon
        cases h
        obtain ⟨gap, hgap⟩ := exists_blanks rest'
        rw [hc, hcolon] at hgap
        exact ⟨name, gap, by rw [← hgap]⟩
      · cases h

theorem skipScalar_sound {c : Char} {cs rest : List Char} (h : skipScalar c cs = .ok rest) :
    ∃ v, Value v ∧ c :: cs = v ++ rest := by
  unfold skipScalar at h
  split at h
  · rename_i hc
    rw [hc, literal_eq_ok_iff.mp h]
    exact ⟨_, .null, rfl⟩
  · split at h
    · rename_i hc
      rw [hc, literal_eq_ok_iff.mp h]
      exact ⟨_, .flag true, rfl⟩
    · split at h
      · rename_i hc
        rw [hc, literal_eq_ok_iff.mp h]
        exact ⟨_, .flag false, rfl⟩
      · split at h
        · rename_i hc
          obtain ⟨ts, rfl⟩ := skipText_sound h
          exact ⟨_, .text ts, by rw [hc]; simp⟩
        · split at h
          · rename_i hc
            obtain ⟨n, hn, rfl⟩ := skipNumber_sound h true
            exact ⟨_, .number n, by rw [hc, Number.spelling, hn]; rfl⟩
          · split at h
            · obtain ⟨n, hn, heq⟩ := skipNumber_sound h false
              exact ⟨_, .number n, by rw [heq, Number.spelling, hn]; rfl⟩
            · cases h

theorem Wants.comma {b : Bracket} {outer : List Bracket} {s : List Char} (ws : Blanks)
    (h : Wants (b :: outer) b.inside s) : Closes (b :: outer) (ws.chars ++ ',' :: s) := by
  cases b with
  | list =>
    obtain ⟨before, v, t, rfl, hv, ht⟩ := h
    exact .item ws before hv ht
  | object =>
    obtain ⟨before, gap, name, t, rfl, between, v, t, rfl, hv, ht⟩ := h
    exact .member ws before gap between name hv ht

theorem Wants.open {b : Bracket} {outer : List Bracket} {s : List Char} (ws : Blanks)
    (h : Wants (b :: outer) b.inside s) : Wanted outer (ws.chars ++ b.opening :: s) := by
  cases b with
  | list => exact Wanted.list ws h
  | object => exact WantedMember.object ws h

theorem Closes.empty {b : Bracket} {outer : List Bracket} {s : List Char} (before ws : Blanks)
    (h : Closes outer s) :
    Wanted outer (before.chars ++ b.opening :: (ws.chars ++ b.closing :: s)) := by
  cases b with
  | list => exact ⟨before, _, s, by simp [inside, Bracket.opening, Bracket.closing],
      .list ws [] (by simp), h⟩
  | object => exact ⟨before, _, s, by simp [inside, Bracket.opening, Bracket.closing],
      .object ws [] (by simp), h⟩

theorem exists_blanks_cons {c : Char} {cs rest : List Char} (h : skipBlanks cs = c :: rest) :
    ∃ ws : Blanks, cs = ws.chars ++ c :: rest := by
  obtain ⟨ws, hws⟩ := exists_blanks cs
  rw [h] at hws
  exact ⟨ws, hws⟩

/-- Whatever is left out is what is wanted there. -/
theorem skipFrom_sound {outer : List Bracket} {place : Place} {cs rest : List Char}
    (h : skipFrom outer place cs = .ok rest) : ∃ s, cs = s ++ rest ∧ Wants outer place s := by
  have front : ∀ {cs s : List Char} {c : Char}, skipBlanks cs = c :: (s ++ rest) →
      ∃ ws : Blanks, cs = (ws.chars ++ c :: s) ++ rest := by
    intro cs s c hc
    obtain ⟨ws, rfl⟩ := exists_blanks_cons hc
    exact ⟨ws, by simp⟩
  fun_induction skipFrom outer place cs with
  | case1 cs =>
    cases h
    exact ⟨[], rfl, .done⟩
  | case2 => cases h
  | case3 cs b outer rest' hc _ ih =>
    obtain ⟨s, rfl, hs⟩ := ih h
    obtain ⟨ws, rfl⟩ := front hc
    exact ⟨_, rfl, Wants.comma ws hs⟩
  | case4 cs b outer rest' hc _ _ ih =>
    obtain ⟨s, rfl, hs⟩ := ih h
    obtain ⟨ws, rfl⟩ := front hc
    exact ⟨_, rfl, .close ws hs⟩
  | case5 => cases h
  | case6 => cases h
  | case7 => cases h
  | case8 cs outer rest' rest'' hn _ hc _ ih =>
    obtain ⟨s, rfl, hs⟩ := ih h
    obtain ⟨name, gap, rfl⟩ := skipName_sound hn
    obtain ⟨ws, rfl⟩ := exists_blanks_cons hc
    refine ⟨ws.chars ++ '"' :: (spelled name ++ '"' :: (gap.chars ++ ':' :: s)), by simp, ?_⟩
    exact ⟨ws, gap, name, s, rfl, hs⟩
  | case9 => cases h
  | case10 => cases h
  | case11 => cases h
  | case12 cs outer c rest' hc _ b place ho rest'' he _ ih =>
    obtain ⟨s, rfl, hs⟩ := ih h
    obtain ⟨rfl, -⟩ := opens?_eq_some ho
    obtain ⟨ws, rfl⟩ := exists_blanks_cons he
    obtain ⟨before, rfl⟩ := exists_blanks_cons hc
    exact ⟨before.chars ++ b.opening :: (ws.chars ++ b.closing :: s), by simp, hs.empty before ws⟩
  | case13 cs outer c rest' hc _ b place ho d rest'' _ _ _ ih =>
    obtain ⟨s, rfl, hs⟩ := ih h
    obtain ⟨rfl, rfl⟩ := opens?_eq_some ho
    obtain ⟨ws, rfl⟩ := front hc
    exact ⟨_, rfl, Wants.open ws hs⟩
  | case14 => cases h
  | case15 cs outer c rest' hc _ _ rest'' hs _ ih =>
    obtain ⟨s, rfl, ht⟩ := ih h
    obtain ⟨v, hv, heq⟩ := skipScalar_sound hs
    obtain ⟨ws, rfl⟩ := exists_blanks_cons hc
    rw [heq]
    exact ⟨ws.chars ++ (v ++ s), by simp, ws, v, s, rfl, hv, ht⟩

theorem skipValue_sound {cs rest : List Char} (h : skipValue cs = .ok rest) :
    ∃ (ws : Blanks) (v : List Char), Value v ∧ cs = ws.chars ++ (v ++ rest) := by
  obtain ⟨s, rfl, ws, v, t, rfl, hv, ht⟩ := skipFrom_sound h
  cases ht
  exact ⟨ws, v, hv, by simp⟩

end ExpiringCache.Json
