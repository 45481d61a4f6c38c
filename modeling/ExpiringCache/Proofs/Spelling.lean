import ExpiringCache.Json.Skip

/-!
# How numbers and texts are spelled

Numbers and texts are described by the parts that they are put together from, so that a spelling that
is none cannot be made. A spelled number is left out exactly if nothing follows that it could go on
with, and a spelled text always; one that says something is read as that. Whatever is read or left out
is spelled so.
-/

namespace ExpiringCache.Json

/-! ## Blanks and digits -/

structure Blanks where
  chars : List Char
  blank : ∀ c ∈ chars, isBlank c = true

def Blanks.none : Blanks := ⟨[], by simp⟩

theorem Blanks.skip (ws : Blanks) (cs : List Char) : skipBlanks (ws.chars ++ cs) = skipBlanks cs :=
  skipBlanks_append ws.blank

theorem exists_blanks (cs : List Char) : ∃ ws : Blanks, cs = ws.chars ++ skipBlanks cs := by
  refine ⟨⟨cs.takeWhile isBlank, fun c hc => ?_⟩, ?_⟩
  · exact List.all_eq_true.mp List.all_takeWhile c hc
  · exact List.takeWhile_append_dropWhile.symm

theorem skipBlanks_cons {c : Char} (h : isBlank c = false) (cs : List Char) :
    skipBlanks (c :: cs) = c :: cs := by
  simp [skipBlanks, h]

theorem ne_of_isDigit {c : Char} (h : c.isDigit = true) (d : Char) (hd : d.isDigit = false) :
    c ≠ d := by
  rintro rfl
  cases hd.symm.trans h

theorem isBlank_of_isDigit {c : Char} (h : c.isDigit = true) : isBlank c = false := by
  have hne := ne_of_isDigit h
  simp [isBlank, hne ' ' rfl, hne '\n' rfl, hne '\t' rfl, hne '\r' rfl]

structure Digits where
  chars : List Char
  ne_nil : chars ≠ []
  digit : ∀ c ∈ chars, c.isDigit = true

/-- Nothing stands in front that a number could go on with. -/
def Bounded (cs : List Char) : Prop :=
  ∀ c, cs.head? = some c → c.isDigit = false ∧ c ≠ '.' ∧ isExponentMark c = false

theorem bounded_nil : Bounded [] := nofun

theorem bounded_cons {c : Char} (h : isBlank c = true ∨ c = ',' ∨ c = ']' ∨ c = '}')
    (cs : List Char) : Bounded (c :: cs) := by
  intro d hd
  cases hd
  simp only [isBlank, Bool.or_eq_true, decide_eq_true_eq] at h
  rcases h with (((rfl | rfl) | rfl) | rfl) | rfl | rfl | rfl <;> decide

theorem Blanks.bounded (ws : Blanks) {cs : List Char} (h : Bounded cs) : Bounded (ws.chars ++ cs) := by
  obtain ⟨chars, blank⟩ := ws
  cases chars with
  | nil => exact h
  | cons c chars => exact bounded_cons (.inl (blank c (List.mem_cons_self ..))) _

namespace Digits

variable (ds : Digits) {cs : List Char}

theorem head (cs : List Char) : ∃ c rest, ds.chars = c :: rest ∧ c.isDigit = true ∧
    ds.chars ++ cs = c :: (rest ++ cs) := by
  obtain ⟨chars, ne_nil, digit⟩ := ds
  cases chars with
  | nil => exact absurd rfl ne_nil
  | cons c rest => exact ⟨c, rest, rfl, digit c (List.mem_cons_self ..), rfl⟩

theorem takeWhile (h : ∀ c, cs.head? = some c → c.isDigit = false) :
    (ds.chars ++ cs).takeWhile Char.isDigit = ds.chars := by
  rw [List.takeWhile_append_of_pos ds.digit]
  cases cs with
  | nil => simp
  | cons c cs => simp [h c rfl]

theorem dropWhile (h : ∀ c, cs.head? = some c → c.isDigit = false) :
    (ds.chars ++ cs).dropWhile Char.isDigit = cs := by
  rw [List.dropWhile_append_of_pos ds.digit]
  cases cs with
  | nil => rfl
  | cons c cs => simp [h c rfl]

theorem skip (h : ∀ c, cs.head? = some c → c.isDigit = false) :
    skipDigits (ds.chars ++ cs) = .ok cs := by
  have hdrop := ds.dropWhile h
  obtain ⟨c, rest, -, hc, heq⟩ := ds.head cs
  rw [heq] at hdrop ⊢
  simp only [skipDigits, hc, if_true]
  rw [List.dropWhile_cons_of_pos hc] at hdrop
  rw [hdrop]

end Digits

/-- The digits at the front. -/
theorem exists_digits {c : Char} (hc : c.isDigit = true) (cs : List Char) :
    ∃ ds : Digits, ds.chars.head? = some c ∧
      c :: cs = ds.chars ++ cs.dropWhile Char.isDigit := by
  refine ⟨⟨c :: cs.takeWhile Char.isDigit, by simp, fun d hd => ?_⟩, rfl, ?_⟩
  · rcases List.mem_cons.mp hd with rfl | hd
    · exact hc
    · exact List.all_eq_true.mp List.all_takeWhile d hd
  · rw [List.cons_append, List.takeWhile_append_dropWhile]

theorem skipDigits_sound {cs rest : List Char} (h : skipDigits cs = .ok rest) :
    ∃ ds : Digits, cs = ds.chars ++ rest := by
  cases cs with
  | nil => cases h
  | cons c cs =>
    simp only [skipDigits] at h
    split at h
    · rename_i hc
      cases h
      obtain ⟨ds, -, heq⟩ := exists_digits hc cs
      exact ⟨ds, heq⟩
    · cases h

/-! ## Numbers -/

inductive Sign where
  | none
  | plus
  | minus

def Sign.chars : Sign → List Char
  | none => []
  | plus => ['+']
  | minus => ['-']

structure Exponent where
  mark : Char
  sign : Sign
  digits : Digits
  isMark : isExponentMark mark = true

def Exponent.spelling (e : Exponent) : List Char := e.mark :: (e.sign.chars ++ e.digits.chars)

structure Number where
  negative : Bool
  whole : Digits
  fraction : Option Digits
  exponent : Option Exponent
  /-- No digit follows a zero in front. -/
  leading : whole.chars.head? = some '0' → whole.chars = ['0']

def fractionSpelling : Option Digits → List Char
  | none => []
  | some ds => '.' :: ds.chars

def exponentSpelling : Option Exponent → List Char
  | none => []
  | some e => e.spelling

namespace Number

/-- What follows the digits before a point. -/
def tail (n : Number) : List Char := fractionSpelling n.fraction ++ exponentSpelling n.exponent

/-- The number without its sign. -/
def magnitude (n : Number) : List Char := n.whole.chars ++ n.tail

def spelling (n : Number) : List Char := if n.negative then '-' :: n.magnitude else n.magnitude

end Number

theorem takeSign_spelled (s : Sign) (ds : Digits) (cs : List Char) :
    (takeSign (s.chars ++ (ds.chars ++ cs))).2 = ds.chars ++ cs := by
  cases s with
  | none =>
    obtain ⟨c, rest, -, hc, heq⟩ := ds.head cs
    show (takeSign (ds.chars ++ cs)).2 = ds.chars ++ cs
    rw [heq]
    unfold takeSign
    split
    · cases ‹_ = _›
      exact absurd hc (by decide)
    · cases ‹_ = _›
      exact absurd hc (by decide)
    · rfl
  | plus => rfl
  | minus => rfl

theorem exists_sign (cs : List Char) : ∃ s : Sign, cs = s.chars ++ (takeSign cs).2 := by
  unfold takeSign
  split
  · exact ⟨.plus, rfl⟩
  · exact ⟨.minus, rfl⟩
  · exact ⟨.none, rfl⟩

theorem Bounded.noDigit {cs : List Char} (h : Bounded cs) :
    ∀ c, cs.head? = some c → c.isDigit = false := fun c hc => (h c hc).1

theorem Exponent.mark_not_digit (e : Exponent) : e.mark.isDigit = false ∧ e.mark ≠ '.' := by
  have hmark := e.isMark
  simp only [isExponentMark, Bool.or_eq_true, decide_eq_true_eq] at hmark
  rcases hmark with h | h <;> rw [h] <;> decide

theorem exponent_not_digit (e : Option Exponent) {rest : List Char} (h : Bounded rest) :
    ∀ c, (exponentSpelling e ++ rest).head? = some c → c.isDigit = false ∧ c ≠ '.' := by
  cases e with
  | none => exact fun c hc => ⟨(h c hc).1, (h c hc).2.1⟩
  | some e =>
    intro c hc
    cases hc
    exact e.mark_not_digit

theorem skipExponent_spelled (e : Option Exponent) {rest : List Char} (h : Bounded rest) :
    skipExponent (exponentSpelling e ++ rest) = .ok rest := by
  cases e with
  | none =>
    cases rest with
    | nil => rfl
    | cons c rest => simp [exponentSpelling, skipExponent, (h c rfl).2.2]
  | some e =>
    have hdigits := e.digits.skip h.noDigit
    simp [exponentSpelling, Exponent.spelling, skipExponent, e.isMark, takeSign_spelled, hdigits]

theorem skipFraction_spelled (f : Option Digits) (e : Option Exponent) {rest : List Char}
    (h : Bounded rest) :
    skipFraction (fractionSpelling f ++ (exponentSpelling e ++ rest)) = .ok rest := by
  have hexponent := skipExponent_spelled e h
  have hnone := exponent_not_digit e h
  cases f with
  | some ds =>
    have hdigits := ds.skip fun c hc => (hnone c hc).1
    simp [fractionSpelling, skipFraction, hdigits, hexponent]
  | none =>
    show skipFraction (exponentSpelling e ++ rest) = .ok rest
    cases hcs : exponentSpelling e ++ rest with
    | nil =>
      rw [hcs] at hexponent
      exact hexponent
    | cons c cs =>
      rw [hcs] at hexponent hnone
      rw [skipFraction, if_neg (hnone c rfl).2]
      exact hexponent

namespace Number

variable (n : Number) {cs rest : List Char}

theorem tail_not_digit (h : Bounded rest) :
    ∀ c, (n.tail ++ rest).head? = some c → c.isDigit = false := by
  unfold tail
  cases n.fraction with
  | some ds =>
    intro c hc
    cases hc
    rfl
  | none => exact fun c hc => (exponent_not_digit n.exponent h c hc).1

theorem tail_begins_not_digit (h : Bounded rest) :
    ¬((n.tail ++ rest).head?.any Char.isDigit) = true := by
  have hnone := n.tail_not_digit h
  cases hh : (n.tail ++ rest).head? with
  | none => simp
  | some d => simp [hnone d hh]

theorem zero_alone {ds : List Char} (h : n.whole.chars = '0' :: ds) : ds = [] := by
  have hlead := n.leading (by rw [h]; rfl)
  rw [h] at hlead
  exact (List.cons.inj hlead).2

/-- A number is left out exactly. -/
theorem skip (h : Bounded rest) : skipNumber (n.magnitude ++ rest) = .ok rest := by
  have hfraction := skipFraction_spelled n.fraction n.exponent h
  rw [← List.append_assoc] at hfraction
  have hdrop := n.whole.dropWhile (n.tail_not_digit h)
  unfold magnitude
  rw [List.append_assoc]
  obtain ⟨c, ds, hwhole, hc, heq⟩ := n.whole.head (n.tail ++ rest)
  rw [heq] at hdrop ⊢
  simp only [skipNumber]
  by_cases hz : c = '0'
  · subst hz
    rw [if_pos rfl, n.zero_alone hwhole, List.nil_append, if_neg (n.tail_begins_not_digit h)]
    exact hfraction
  · rw [List.dropWhile_cons_of_pos hc] at hdrop
    rw [if_neg hz, if_pos hc, hdrop]
    exact hfraction

end Number

/-! ### What is left out is a number -/

theorem skipExponent_sound {cs rest : List Char} (h : skipExponent cs = .ok rest) :
    ∃ e : Option Exponent, cs = exponentSpelling e ++ rest := by
  cases cs with
  | nil =>
    cases h
    exact ⟨none, rfl⟩
  | cons c cs =>
    simp only [skipExponent] at h
    split at h
    · rename_i hm
      obtain ⟨ds, hds⟩ := skipDigits_sound h
      obtain ⟨s, hs⟩ := exists_sign cs
      refine ⟨some ⟨c, s, ds, hm⟩, ?_⟩
      rw [hs, hds]
      simp [exponentSpelling, Exponent.spelling]
    · cases h
      exact ⟨none, rfl⟩

theorem skipFraction_sound {cs rest : List Char} (h : skipFraction cs = .ok rest) :
    ∃ (f : Option Digits) (e : Option Exponent),
      cs = fractionSpelling f ++ (exponentSpelling e ++ rest) := by
  cases cs with
  | nil =>
    cases h
    exact ⟨none, none, rfl⟩
  | cons c cs =>
    simp only [skipFraction] at h
    split at h
    · rename_i hpoint
      subst hpoint
      split at h
      · cases h
      · rename_i rest' hd
        obtain ⟨ds, rfl⟩ := skipDigits_sound hd
        obtain ⟨e, rfl⟩ := skipExponent_sound h
        exact ⟨some ds, e, rfl⟩
    · obtain ⟨e, he⟩ := skipExponent_sound h
      exact ⟨none, e, he⟩

theorem skipNumber_sound {cs rest : List Char} (h : skipNumber cs = .ok rest) (negative : Bool) :
    ∃ n : Number, n.negative = negative ∧ cs = n.magnitude ++ rest := by
  cases cs with
  | nil => cases h
  | cons c cs =>
    simp only [skipNumber] at h
    split at h
    · rename_i hz
      subst hz
      split at h
      · cases h
      · obtain ⟨f, e, rfl⟩ := skipFraction_sound h
        refine ⟨⟨negative, ⟨['0'], by simp, by simp⟩, f, e, fun _ => rfl⟩, rfl, ?_⟩
        simp [Number.magnitude, Number.tail]
    · rename_i hz
      split at h
      · rename_i hc
        obtain ⟨ds, hhead, hds⟩ := exists_digits hc cs
        obtain ⟨f, e, hrest⟩ := skipFraction_sound h
        refine ⟨⟨negative, ds, f, e, fun hlead => ?_⟩, rfl, ?_⟩
        · rw [hhead] at hlead
          exact absurd (Option.some.inj hlead) hz
        · rw [hds, hrest]
          simp [Number.magnitude, Number.tail]
      · cases h

/-! ## Texts -/

/-- A part of a text as it is spelled. -/
inductive Token where
  | plain (c : Char) (h : c ≠ '"' ∧ c ≠ '\\' ∧ ¬c < ' ')
  | short (c d : Char) (h : shortEscape? c = some d)
  /-- A unit of UTF-16, by its hexadecimal digits. -/
  | unit (digits : List Char) (n : Nat) (hlen : digits.length = 4) (h : hexNumber? digits = some n)

def Token.spelling : Token → List Char
  | plain c _ => [c]
  | short c _ _ => ['\\', c]
  | unit digits _ _ _ => '\\' :: 'u' :: digits

/-- A text up to its closing quote, exclusively. -/
def spelled (ts : List Token) : List Char := ts.flatMap Token.spelling

section

variable (ts : List Token) (cs : List Char)

theorem spelled_plain (c : Char) (h : c ≠ '"' ∧ c ≠ '\\' ∧ ¬c < ' ') :
    spelled (.plain c h :: ts) ++ cs = c :: (spelled ts ++ cs) := by
  simp [spelled, Token.spelling]

theorem spelled_short (c d : Char) (h : shortEscape? c = some d) :
    spelled (.short c d h :: ts) ++ cs = '\\' :: c :: (spelled ts ++ cs) := by
  simp [spelled, Token.spelling]

theorem spelled_unit (digits : List Char) (n : Nat) (hlen : digits.length = 4)
    (h : hexNumber? digits = some n) : spelled (.unit digits n hlen h :: ts) ++ cs =
      '\\' :: 'u' :: (digits ++ (spelled ts ++ cs)) := by
  simp [spelled, Token.spelling]

end

/-- What the text says; nothing if a half of a pair stands on its own in it. -/
def meaning? : List Token → Option (List Char)
  | [] => some []
  | .plain c _ :: ts => (meaning? ts).map (c :: ·)
  | .short _ d _ :: ts => (meaning? ts).map (d :: ·)
  | .unit _ n _ _ :: ts =>
    if isLowHalf n then none
    else if isHighHalf n then
      match ts with
      | .unit _ low _ _ :: ts =>
        if isLowHalf low then (meaning? ts).map (ofHalves n low :: ·) else none
      | _ => none
    else (meaning? ts).map (Char.ofNat n :: ·)

theorem le_foldl_utf8Size (cs : List Char) (n : Nat) :
    n + cs.length ≤ (cs.map Char.utf8Size).foldl Nat.add n := by
  induction cs generalizing n with
  | nil => exact Nat.le_refl n
  | cons c cs ih =>
    have hc := c.utf8Size_pos
    have hrest := ih (n + c.utf8Size)
    rw [List.map_cons, List.foldl_cons, List.length_cons]
    exact Nat.le_trans (by omega) hrest

theorem unit_spelled {digits : List Char} {n : Nat} (hlen : digits.length = 4)
    (h : hexNumber? digits = some n) (rest : List Char) :
    unit (digits ++ rest) = .ok (n, rest) := by
  have htake : (digits ++ rest).take 4 = digits := List.take_left' hlen
  have hdrop : (digits ++ rest).drop 4 = rest := List.drop_left' hlen
  have hsize := le_foldl_utf8Size digits 0
  have hlong : ¬(digits ++ rest).length < 4 := by
    rw [List.length_append]
    omega
  unfold unit
  rw [htake, hdrop, if_neg (by omega), if_neg hlong, h]

theorem unit_sound {cs rest : List Char} {n : Nat} (h : unit cs = .ok (n, rest)) :
    ∃ digits, digits.length = 4 ∧ hexNumber? digits = some n ∧ cs = digits ++ rest := by
  simp only [unit] at h
  split at h
  · cases h
  · split at h
    · cases h
    · rename_i hlen
      split at h
      · rename_i m hm
        cases h
        exact ⟨cs.take 4, by rw [List.length_take]; omega, hm, (List.take_append_drop 4 cs).symm⟩
      · cases h

theorem shortEscape?_ne_u {c d : Char} (h : shortEscape? c = some d) : c ≠ 'u' := by
  rintro rfl
  cases h

theorem readText_plain {c : Char} (h : c ≠ '"' ∧ c ≠ '\\' ∧ ¬c < ' ') (cs : List Char) :
    readText (c :: cs) = (readText cs).map fun r => (c :: r.1, r.2) := by
  rw [readText, if_neg h.1, if_neg h.2.1, if_neg h.2.2]

theorem readText_escape {cs rest : List Char} {d : Char} (h : escape cs = .ok (d, rest)) :
    readText ('\\' :: cs) = (readText rest).map fun r => (d :: r.1, r.2) := by
  rw [readText, if_neg (by decide), if_pos rfl]
  split
  · rename_i f hf
    rw [h] at hf
    cases hf
  · rename_i d' rest' hd
    rw [h] at hd
    cases hd
    rfl

theorem readText_unescaped {cs : List Char} (h : escape cs = .error .malformed) :
    readText ('\\' :: cs) = .error .malformed := by
  rw [readText, if_neg (by decide), if_pos rfl]
  split
  · rename_i f hf
    cases h.symm.trans hf
    rfl
  · rename_i d' rest' hd
    rw [h] at hd
    cases hd

theorem escape_unit {digits : List Char} {n : Nat} (hlen : digits.length = 4)
    (h : hexNumber? digits = some n) (rest : List Char) :
    escape ('u' :: (digits ++ rest)) = if isLowHalf n then .error .malformed
      else if isHighHalf n then lowHalf n rest else .ok (Char.ofNat n, rest) := by
  rw [escape, if_pos rfl, unicodeEscape, unit_spelled hlen h]

theorem lowHalf_unit {digits : List Char} {high low : Nat} (hlen : digits.length = 4)
    (h : hexNumber? digits = some low) (rest : List Char) :
    lowHalf high ('\\' :: 'u' :: (digits ++ rest)) =
      if isLowHalf low then .ok (ofHalves high low, rest) else .error .malformed := by
  rw [lowHalf, if_pos rfl, lowUnit, if_pos rfl, unit_spelled hlen h]

/-- Nothing but another unit makes up a pair. -/
theorem lowHalf_alone {ts : List Token} (high : Nat) (rest : List Char)
    (h : ∀ digits low hlen hnum ts', ts ≠ .unit digits low hlen hnum :: ts') :
    lowHalf high (spelled ts ++ '"' :: rest) = .error .malformed := by
  cases ts with
  | nil => rfl
  | cons t ts =>
    cases t with
    | plain c hc => rw [spelled_plain, lowHalf, if_neg hc.2.1]
    | short c d hc =>
      rw [spelled_short, lowHalf, if_pos rfl, lowUnit, if_neg (shortEscape?_ne_u hc)]
    | unit digits low hlen hnum => exact absurd rfl (h digits low hlen hnum ts)

/-- A text that says something is read as that, and no other text is read. -/
theorem readText_spelled (ts : List Token) (rest : List Char) :
    readText (spelled ts ++ '"' :: rest) = match meaning? ts with
      | some text => .ok (text, rest)
      | none => .error .malformed := by
  have further : ∀ (c : Char) (ts : List Token), readText (spelled ts ++ '"' :: rest) =
      (match meaning? ts with
        | some text => .ok (text, rest)
        | none => .error .malformed) →
      (readText (spelled ts ++ '"' :: rest)).map (fun r => (c :: r.1, r.2)) =
        match (meaning? ts).map (c :: ·) with
        | some text => .ok (text, rest)
        | none => .error .malformed := by
    intro c ts h
    rw [h]
    cases meaning? ts <;> rfl
  fun_induction meaning? ts with
  | case1 => rw [spelled, List.flatMap_nil, List.nil_append, readText, if_pos rfl]
  | case2 c hc ts ih =>
    rw [spelled_plain, readText_plain hc]
    exact further c ts ih
  | case3 c d hc ts ih =>
    have hescape : escape (c :: (spelled ts ++ '"' :: rest)) = .ok (d, spelled ts ++ '"' :: rest) := by
      rw [escape, if_neg (shortEscape?_ne_u hc), hc]
    rw [spelled_short, readText_escape hescape]
    exact further d ts ih
  | case4 digits n hlen hnum ts hlow =>
    rw [spelled_unit]
    apply readText_unescaped
    rw [escape_unit hlen hnum, if_pos hlow]
  | case5 digits n hlen hnum hlow hhigh digits' low hlen' hnum' ts hpair ih =>
    have hescape := escape_unit hlen hnum ('\\' :: 'u' :: (digits' ++ (spelled ts ++ '"' :: rest)))
    rw [if_neg hlow, if_pos hhigh, lowHalf_unit hlen' hnum', if_pos hpair] at hescape
    rw [spelled_unit, spelled_unit, readText_escape hescape]
    exact further _ ts ih
  | case6 digits n hlen hnum hlow hhigh digits' low hlen' hnum' ts hpair =>
    rw [spelled_unit, spelled_unit]
    apply readText_unescaped
    rw [escape_unit hlen hnum, if_neg hlow, if_pos hhigh, lowHalf_unit hlen' hnum', if_neg hpair]
  | case7 digits n hlen hnum ts hlow hhigh halone =>
    rw [spelled_unit]
    apply readText_unescaped
    rw [escape_unit hlen hnum, if_neg hlow, if_pos hhigh]
    exact lowHalf_alone n rest halone
  | case8 digits n hlen hnum ts hlow hhigh ih =>
    have hescape := escape_unit hlen hnum (spelled ts ++ '"' :: rest)
    rw [if_neg hlow, if_neg hhigh] at hescape
    rw [spelled_unit, readText_escape hescape]
    exact further _ ts ih

/-! ### Texts that are left out -/

theorem skipText_escape {cs rest : List Char} (h : skipEscape cs = .ok rest) :
    skipText ('\\' :: cs) = skipText rest := by
  rw [skipText, if_neg (by decide), if_pos rfl]
  split
  · rename_i f hf
    cases h.symm.trans hf
  · rename_i rest' hr
    cases h.symm.trans hr
    rfl

theorem skipText_plain {c : Char} (h : c ≠ '"' ∧ c ≠ '\\' ∧ ¬c < ' ') (cs : List Char) :
    skipText (c :: cs) = skipText cs := by
  rw [skipText, if_neg h.1, if_neg h.2.1, if_neg h.2.2]

theorem skipEscape_unit {cs rest : List Char} {n : Nat} (h : unit cs = .ok (n, rest)) :
    skipEscape ('u' :: cs) = .ok rest := by
  rw [skipEscape, if_pos rfl, h]
  rfl

/-- Every text is left out exactly, whether or not it says something. -/
theorem skipText_spelled (ts : List Token) (rest : List Char) :
    skipText (spelled ts ++ '"' :: rest) = .ok rest := by
  induction ts with
  | nil => rw [spelled, List.flatMap_nil, List.nil_append, skipText, if_pos rfl]
  | cons t ts ih =>
    cases t with
    | plain c h => rw [spelled_plain, skipText_plain h, ih]
    | short c d h =>
      have hescape : skipEscape (c :: (spelled ts ++ '"' :: rest)) = .ok (spelled ts ++ '"' :: rest) := by
        rw [skipEscape, if_neg (shortEscape?_ne_u h), h]
        rfl
      rw [spelled_short, skipText_escape hescape, ih]
    | unit digits n hlen h =>
      rw [spelled_unit, skipText_escape (skipEscape_unit (unit_spelled hlen h _)), ih]

theorem skipEscape_sound {cs rest : List Char} (h : skipEscape cs = .ok rest) :
    ∃ t : Token, '\\' :: cs = t.spelling ++ rest := by
  cases cs with
  | nil => cases h
  | cons c cs =>
    simp only [skipEscape] at h
    split at h
    · rename_i hu
      cases hunit : unit cs with
      | error f => simp [hunit, Except.map] at h
      | ok r =>
        obtain ⟨n, rest'⟩ := r
        rw [hunit] at h
        cases h
        obtain ⟨digits, hlen, hnum, rfl⟩ := unit_sound hunit
        exact ⟨.unit digits n hlen hnum, by rw [hu]; rfl⟩
    · split at h
      · rename_i hshort
        cases h
        obtain ⟨d, hd⟩ := Option.isSome_iff_exists.mp hshort
        exact ⟨.short c d hd, rfl⟩
      · cases h

theorem skipText_sound {cs rest : List Char} (h : skipText cs = .ok rest) :
    ∃ ts, cs = spelled ts ++ '"' :: rest := by
  fun_induction skipText cs with
  | case1 => cases h
  | case2 cs =>
    cases h
    exact ⟨[], rfl⟩
  | case3 => cases h
  | case4 cs rest' hescape _ _ ih =>
    obtain ⟨ts, rfl⟩ := ih h
    obtain ⟨t, ht⟩ := skipEscape_sound hescape
    exact ⟨t :: ts, by rw [ht]; simp [spelled]⟩
  | case5 => cases h
  | case6 c cs hq hb hc ih =>
    obtain ⟨ts, rfl⟩ := ih h
    exact ⟨.plain c ⟨hq, hb, hc⟩ :: ts, (spelled_plain ..).symm⟩

theorem lowHalf_sound {high : Nat} {cs rest : List Char} {d : Char}
    (h : lowHalf high cs = .ok (d, rest)) : ∃ t : Token, cs = t.spelling ++ rest := by
  cases cs with
  | nil => cases h
  | cons c cs =>
    simp only [lowHalf] at h
    split at h
    · rename_i hb
      cases cs with
      | nil => cases h
      | cons e cs =>
        simp only [lowUnit] at h
        split at h
        · rename_i hu
          split at h
          · cases h
          · rename_i low rest' hunit
            split at h
            · simp only [Except.ok.injEq, Prod.mk.injEq] at h
              obtain ⟨-, rfl⟩ := h
              obtain ⟨digits, hlen, hnum, rfl⟩ := unit_sound hunit
              exact ⟨.unit digits low hlen hnum, by rw [hb, hu]; rfl⟩
            · cases h
        · cases h
    · cases h

/-- An escape is one token, or two if it is a pair. -/
theorem escape_sound {cs rest : List Char} {d : Char} (h : escape cs = .ok (d, rest)) :
    ∃ ts, '\\' :: cs = spelled ts ++ rest := by
  cases cs with
  | nil => cases h
  | cons c cs =>
    simp only [escape] at h
    split at h
    · rename_i hu
      simp only [unicodeEscape] at h
      split at h
      · cases h
      · rename_i n rest' hunit
        obtain ⟨digits, hlen, hnum, rfl⟩ := unit_sound hunit
        have hone : ∀ ts, spelled (.unit digits n hlen hnum :: ts) ++ rest =
            '\\' :: c :: (digits ++ (spelled ts ++ rest)) := by
          rw [hu]
          exact fun ts => spelled_unit ts rest digits n hlen hnum
        split at h
        · cases h
        · split at h
          · obtain ⟨t, rfl⟩ := lowHalf_sound h
            exact ⟨[.unit digits n hlen hnum, t], by rw [hone]; simp [spelled]⟩
          · cases h
            exact ⟨[.unit digits n hlen hnum], by rw [hone]; rfl⟩
    · split at h
      · rename_i d' hshort
        cases h
        exact ⟨[.short c d hshort], rfl⟩
      · cases h

theorem readText_sound {cs text rest : List Char} (h : readText cs = .ok (text, rest)) :
    ∃ ts, cs = spelled ts ++ '"' :: rest := by
  fun_induction readText cs generalizing text with
  | case1 => cases h
  | case2 cs =>
    cases h
    exact ⟨[], rfl⟩
  | case3 => cases h
  | case4 cs d rest' hescape _ _ ih =>
    cases hr : readText rest' with
    | error f => simp [hr, Except.map] at h
    | ok r =>
      rw [hr] at h
      cases h
      obtain ⟨ts, rfl⟩ := ih hr
      obtain ⟨front, hfront⟩ := escape_sound hescape
      exact ⟨front ++ ts, by rw [hfront]; simp [spelled]⟩
  | case5 => cases h
  | case6 c cs hq hb hc ih =>
    cases hr : readText cs with
    | error f => simp [hr, Except.map] at h
    | ok r =>
      rw [hr] at h
      cases h
      obtain ⟨ts, rfl⟩ := ih hr
      exact ⟨.plain c ⟨hq, hb, hc⟩ :: ts, (spelled_plain ..).symm⟩

end ExpiringCache.Json
