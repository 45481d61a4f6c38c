import ExpiringCache.Decimal.Binary64
import ExpiringCache.Json.Basic

/-!
# Numbers in JSON

A number without point and exponent is read exactly if it fits sixty-four bits, signed or not.
Every other number is read as a binary64 real: the digits are taken as far as they fit sixty-four
unsigned bits, and the number so taken is rounded and then multiplied or divided by a rounded
power of ten. Minus zero is a real. A real that is too large is malformed, and one that is too
small is zero.
-/

namespace ExpiringCache.Json

inductive Numeral where
  | natural (n : UInt64)
  /-- The number `-n`. -/
  | negative (n : Nat)
  | real (negative : Bool) (magnitude : Binary64)
deriving DecidableEq

def digitValue (c : Char) : Nat := c.toNat - '0'.toNat

/-- The number that digits write after `n`. -/
def digitsValue (n : Nat) (digits : List Char) : Nat :=
  digits.foldl (fun n c => 10 * n + digitValue c) n

/-- Takes digits on as long as the number fits sixty-four bits; returns those that are left. -/
def absorb (n : Nat) : List Char → Nat × List Char
  | [] => (n, [])
  | c :: cs =>
    let m := 10 * n + digitValue c
    if m < UInt64.size then absorb m cs else (n, c :: cs)

theorem absorb_eq {n : Nat} {digits : List Char} (h : digitsValue n digits < UInt64.size) :
    absorb n digits = (digitsValue n digits, []) := by
  induction digits generalizing n with
  | nil => rfl
  | cons c cs ih =>
    have hle : ∀ (cs : List Char) (m : Nat), m ≤ digitsValue m cs := by
      intro cs
      induction cs with
      | nil => exact fun m => Nat.le_refl m
      | cons d ds ihd =>
        intro m
        exact Nat.le_trans (by omega) (ihd (10 * m + digitValue d))
    have hm : 10 * n + digitValue c < UInt64.size := Nat.lt_of_le_of_lt (hle cs _) h
    simp only [absorb, hm, if_true]
    exact ih h

def tenTo (n : Nat) : Binary64 := (Binary64.ofNat (Nat.pow 10 n)).getD .zero

/-- Multiplies by a power of ten; a divisor beyond `10 ^ 308` is taken in parts. -/
def scaled (x : Binary64) (exponent : Int) : Except Fault Binary64 :=
  if exponent.natAbs ≤ 308 then
    if 0 ≤ exponent then
      match x.mul (tenTo exponent.natAbs) with
      | some y => .ok y
      | none => .error .malformed
    else .ok ((x.div (tenTo exponent.natAbs)).getD .zero)
  else if x.mantissa = 0 then .ok x
  else if 0 ≤ exponent then .error .malformed
  else scaled ((x.div (tenTo 308)).getD .zero) (exponent + 308)
termination_by exponent.natAbs
decreasing_by omega

/-- The real `significand * 10 ^ exponent`. -/
def readReal (negative : Bool) (significand : Nat) (exponent : Int) (rest : List Char) :
    Except Fault (Numeral × List Char) :=
  (scaled ((Binary64.ofNat significand).getD .zero) exponent).map fun m => (.real negative m, rest)

theorem readReal_rest {negative : Bool} {significand : Nat} {exponent : Int}
    {cs rest : List Char} {n : Numeral}
    (h : readReal negative significand exponent cs = .ok (n, rest)) : rest = cs := by
  simp only [readReal] at h
  cases hs : scaled ((Binary64.ofNat significand).getD .zero) exponent with
  | error f => simp [hs, Except.map] at h
  | ok m =>
    simp only [hs, Except.map, Except.ok.injEq, Prod.mk.injEq] at h
    exact h.2.symm

/-- An optional sign; says whether it is a minus. -/
def takeSign : List Char → Bool × List Char
  | '+' :: cs => (false, cs)
  | '-' :: cs => (true, cs)
  | cs => (false, cs)

theorem takeSign_suffix (cs : List Char) : (takeSign cs).2 <:+ cs := by
  unfold takeSign
  split
  · exact List.suffix_cons _ _
  · exact List.suffix_cons _ _
  · exact List.suffix_refl _

/-- What follows the mark of an exponent; `start` is the exponent of the digits before it. -/
def readExponent (negative : Bool) (significand : Nat) (start : Int) (cs : List Char) :
    Except Fault (Numeral × List Char) :=
  let sign := takeSign cs
  match sign.2 with
  | [] => .error .cutShort
  | c :: _ =>
    if c.isDigit then
      let e := digitsValue 0 (sign.2.takeWhile Char.isDigit)
      let rest := sign.2.dropWhile Char.isDigit
      if UInt32.size / 2 ≤ e then
        if significand = 0 ∨ sign.1 = true then .ok (.real negative .zero, rest)
        else .error .malformed
      else readReal negative significand (if sign.1 then start - e else start + e) rest
    else .error .malformed

theorem readExponent_suffix {negative : Bool} {significand : Nat} {start : Int}
    {cs rest : List Char} {n : Numeral}
    (h : readExponent negative significand start cs = .ok (n, rest)) : rest <:+ cs := by
  have hd : (takeSign cs).2.dropWhile Char.isDigit <:+ cs :=
    (List.dropWhile_suffix _).trans (takeSign_suffix cs)
  simp only [readExponent] at h
  split at h
  · cases h
  · split at h
    · split at h
      · split at h
        · simp only [Except.ok.injEq, Prod.mk.injEq] at h
          rw [← h.2]
          exact hd
        · cases h
      · rw [readReal_rest h]
        exact hd
    · cases h

def isExponentMark (c : Char) : Bool := c = 'e' || c = 'E'

/-- What follows the digits after a point. -/
def afterFraction (negative : Bool) (significand : Nat) (exponent : Int) :
    List Char → Except Fault (Numeral × List Char)
  | [] => readReal negative significand exponent []
  | c :: cs =>
    if isExponentMark c then readExponent negative significand exponent cs
    else readReal negative significand exponent (c :: cs)

theorem afterFraction_suffix {negative : Bool} {significand : Nat} {exponent : Int}
    {cs rest : List Char} {n : Numeral}
    (h : afterFraction negative significand exponent cs = .ok (n, rest)) : rest <:+ cs := by
  cases cs with
  | nil =>
    obtain rfl := readReal_rest h
    exact List.suffix_refl _
  | cons c cs =>
    simp only [afterFraction] at h
    split at h
    · exact (readExponent_suffix h).trans (List.suffix_cons _ _)
    · obtain rfl := readReal_rest h
      exact List.suffix_refl _

/-- What follows a point; `start` is the exponent of the digits before it. -/
def readFraction (negative : Bool) (significand : Nat) (start : Int) (cs : List Char) :
    Except Fault (Numeral × List Char) :=
  let digits := cs.takeWhile Char.isDigit
  if digits.isEmpty then .error (if cs.isEmpty then .cutShort else .malformed)
  else
    let taken := absorb significand digits
    afterFraction negative taken.1 (start - (digits.length - taken.2.length))
      (cs.dropWhile Char.isDigit)

theorem readFraction_suffix {negative : Bool} {significand : Nat} {start : Int}
    {cs rest : List Char} {n : Numeral}
    (h : readFraction negative significand start cs = .ok (n, rest)) : rest <:+ cs := by
  simp only [readFraction] at h
  split at h
  · cases h
  · exact (afterFraction_suffix h).trans (List.dropWhile_suffix _)

/-- A number that is written by digits alone. -/
def integer (negative : Bool) (n : Nat) (rest : List Char) : Numeral × List Char :=
  if negative then
    if 0 < n ∧ n ≤ UInt64.size / 2 then (.negative n, rest)
    else (.real true ((Binary64.ofNat n).getD .zero), rest)
  else (.natural (.ofNat n), rest)

theorem integer_rest (negative : Bool) (n : Nat) (rest : List Char) :
    (integer negative n rest).2 = rest := by
  simp only [integer]
  split
  · split <;> rfl
  · rfl

/-- What follows the digits before a point, of which `dropped` did not fit. -/
def afterWhole (negative : Bool) (significand dropped : Nat) (cs : List Char) :
    Except Fault (Numeral × List Char) :=
  match cs with
  | [] =>
    if dropped = 0 then .ok (integer negative significand [])
    else readReal negative significand dropped []
  | c :: rest =>
    if c = '.' then readFraction negative significand dropped rest
    else if isExponentMark c then readExponent negative significand dropped rest
    else if dropped = 0 then .ok (integer negative significand (c :: rest))
    else readReal negative significand dropped (c :: rest)

theorem afterWhole_suffix {negative : Bool} {significand dropped : Nat}
    {cs rest : List Char} {n : Numeral}
    (h : afterWhole negative significand dropped cs = .ok (n, rest)) : rest <:+ cs := by
  have hi : ∀ cs, Except.ok (ε := Fault) (integer negative significand cs) = .ok (n, rest) →
      rest <:+ cs := by
    intro cs he
    simp only [Except.ok.injEq] at he
    have hr := integer_rest negative significand cs
    rw [he] at hr
    obtain rfl := hr
    exact List.suffix_refl _
  unfold afterWhole at h
  split at h
  · split at h
    · exact hi _ h
    · obtain rfl := readReal_rest h
      exact List.suffix_refl _
  · split at h
    · exact (readFraction_suffix h).trans (List.suffix_cons _ _)
    · split at h
      · exact (readExponent_suffix h).trans (List.suffix_cons _ _)
      · split at h
        · exact hi _ h
        · obtain rfl := readReal_rest h
          exact List.suffix_refl _

/-- A number after its sign. No digit may follow a zero in front. -/
def readNumber (negative : Bool) (cs : List Char) : Except Fault (Numeral × List Char) :=
  match cs with
  | [] => .error .cutShort
  | c :: rest =>
    if c = '0' then
      if rest.head?.any Char.isDigit then .error .malformed else afterWhole negative 0 0 rest
    else if c.isDigit then
      let taken := absorb 0 (cs.takeWhile Char.isDigit)
      afterWhole negative taken.1 taken.2.length (cs.dropWhile Char.isDigit)
    else .error .malformed

theorem readNumber_suffix {negative : Bool} {cs rest : List Char} {n : Numeral}
    (h : readNumber negative cs = .ok (n, rest)) : rest <:+ cs := by
  unfold readNumber at h
  split at h
  · cases h
  · split at h
    · split at h
      · cases h
      · exact (afterWhole_suffix h).trans (List.suffix_cons _ _)
    · split at h
      · exact (afterWhole_suffix h).trans (List.dropWhile_suffix _)
      · cases h

/-- Leaves out at least one digit. -/
def skipDigits : List Char → Except Fault (List Char)
  | [] => .error .malformed
  | c :: cs => if c.isDigit then .ok (cs.dropWhile Char.isDigit) else .error .malformed

theorem skipDigits_suffix {cs rest : List Char} (h : skipDigits cs = .ok rest) : rest <:+ cs := by
  cases cs with
  | nil => cases h
  | cons c cs =>
    simp only [skipDigits] at h
    split at h
    · cases h
      exact (List.dropWhile_suffix _).trans (List.suffix_cons _ _)
    · cases h

/-- Leaves out an exponent, if there is one. -/
def skipExponent : List Char → Except Fault (List Char)
  | [] => .ok []
  | c :: cs => if isExponentMark c then skipDigits (takeSign cs).2 else .ok (c :: cs)

theorem skipExponent_suffix {cs rest : List Char} (h : skipExponent cs = .ok rest) :
    rest <:+ cs := by
  cases cs with
  | nil => cases h; exact List.suffix_refl _
  | cons c cs =>
    simp only [skipExponent] at h
    split at h
    · exact ((skipDigits_suffix h).trans (takeSign_suffix cs)).trans (List.suffix_cons _ _)
    · cases h; exact List.suffix_refl _

/-- Leaves out a fraction and an exponent, if there are any. -/
def skipFraction : List Char → Except Fault (List Char)
  | [] => .ok []
  | c :: cs =>
    if c = '.' then
      match skipDigits cs with
      | .error f => .error f
      | .ok rest => skipExponent rest
    else skipExponent (c :: cs)

theorem skipFraction_suffix {cs rest : List Char} (h : skipFraction cs = .ok rest) :
    rest <:+ cs := by
  cases cs with
  | nil => cases h; exact List.suffix_refl _
  | cons c cs =>
    simp only [skipFraction] at h
    split at h
    · split at h
      · cases h
      · rename_i hd
        exact ((skipExponent_suffix h).trans (skipDigits_suffix hd)).trans (List.suffix_cons _ _)
    · exact skipExponent_suffix h

/-- Leaves out a number after its sign. One that ends too early is malformed here. -/
def skipNumber : List Char → Except Fault (List Char)
  | [] => .error .malformed
  | c :: cs =>
    if c = '0' then
      if cs.head?.any Char.isDigit then .error .malformed else skipFraction cs
    else if c.isDigit then skipFraction (cs.dropWhile Char.isDigit)
    else .error .malformed

theorem skipNumber_suffix {cs rest : List Char} (h : skipNumber cs = .ok rest) : rest <:+ cs := by
  cases cs with
  | nil => cases h
  | cons c cs =>
    simp only [skipNumber] at h
    split at h
    · split at h
      · cases h
      · exact (skipFraction_suffix h).trans (List.suffix_cons _ _)
    · split at h
      · exact ((skipFraction_suffix h).trans (List.dropWhile_suffix _)).trans
          (List.suffix_cons _ _)
      · cases h

end ExpiringCache.Json
