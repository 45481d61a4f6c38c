import ExpiringCache.Json.Basic

/-!
# Texts in JSON

A text runs to its closing quote. A backslash begins an escape: a short one, or four hexadecimal
digits of a UTF-16 unit, of which the two halves of a pair stand for one character. A half on its
own is malformed where the text is wanted; a text that is skipped may hold one. The room for four
digits is measured in bytes of UTF-8.
-/

namespace ExpiringCache.Json

def hexValue? (c : Char) : Option Nat :=
  if '0' ≤ c ∧ c ≤ '9' then some (c.toNat - '0'.toNat)
  else if 'a' ≤ c ∧ c ≤ 'f' then some (c.toNat - 'a'.toNat + 10)
  else if 'A' ≤ c ∧ c ≤ 'F' then some (c.toNat - 'A'.toNat + 10)
  else none

/-- The number that hexadecimal digits write. -/
def hexNumber? (cs : List Char) : Option Nat :=
  cs.foldlM (fun n c => (hexValue? c).map (16 * n + ·)) 0

/-- Four hexadecimal digits. -/
def unit (cs : List Char) : Except Fault (Nat × List Char) :=
  if ((cs.take 4).map Char.utf8Size).foldl Nat.add 0 < 4 then .error .cutShort
  else if cs.length < 4 then .error .malformed
  else
    match hexNumber? (cs.take 4) with
    | some n => .ok (n, cs.drop 4)
    | none => .error .malformed

theorem unit_suffix {cs rest : List Char} {n : Nat} (h : unit cs = .ok (n, rest)) :
    rest <:+ cs := by
  simp only [unit] at h
  split at h
  · cases h
  · split at h
    · cases h
    · split at h
      · cases h
        exact List.drop_suffix _ _
      · cases h

def isHighHalf (n : Nat) : Bool := 0xd800 ≤ n && n ≤ 0xdbff

def isLowHalf (n : Nat) : Bool := 0xdc00 ≤ n && n ≤ 0xdfff

/-- The character of a pair of halves. -/
def ofHalves (high low : Nat) : Char :=
  Char.ofNat (0x10000 + (high - 0xd800) * 0x400 + (low - 0xdc00))

/-- The unit of a second half, after its `u`. -/
def lowUnit (high : Nat) : List Char → Except Fault (Char × List Char)
  | [] => .error .cutShort
  | c :: cs =>
    if c = 'u' then
      match unit cs with
      | .error f => .error f
      | .ok (low, rest) =>
        if isLowHalf low then .ok (ofHalves high low, rest) else .error .malformed
    else .error .malformed

/-- The second half of a pair, an escape of its own. -/
def lowHalf (high : Nat) : List Char → Except Fault (Char × List Char)
  | [] => .error .cutShort
  | c :: cs => if c = '\\' then lowUnit high cs else .error .malformed

theorem lowUnit_suffix {high : Nat} {cs rest : List Char} {c : Char}
    (h : lowUnit high cs = .ok (c, rest)) : rest <:+ cs := by
  cases cs with
  | nil => cases h
  | cons d cs =>
    simp only [lowUnit] at h
    split at h
    · split at h
      · cases h
      · rename_i hu
        split at h
        · simp only [Except.ok.injEq, Prod.mk.injEq] at h
          rw [← h.2]
          exact (unit_suffix hu).trans (List.suffix_cons _ _)
        · cases h
    · cases h

theorem lowHalf_suffix {high : Nat} {cs rest : List Char} {c : Char}
    (h : lowHalf high cs = .ok (c, rest)) : rest <:+ cs := by
  cases cs with
  | nil => cases h
  | cons d cs =>
    simp only [lowHalf] at h
    split at h
    · exact (lowUnit_suffix h).trans (List.suffix_cons _ _)
    · cases h

/-- What follows a backslash and a `u`. -/
def unicodeEscape (cs : List Char) : Except Fault (Char × List Char) :=
  match unit cs with
  | .error f => .error f
  | .ok (n, rest) =>
    if isLowHalf n then .error .malformed
    else if isHighHalf n then lowHalf n rest
    else .ok (Char.ofNat n, rest)

theorem unicodeEscape_suffix {cs rest : List Char} {c : Char}
    (h : unicodeEscape cs = .ok (c, rest)) : rest <:+ cs := by
  simp only [unicodeEscape] at h
  split at h
  · cases h
  · rename_i hu
    split at h
    · cases h
    · split at h
      · exact (lowHalf_suffix h).trans (unit_suffix hu)
      · cases h
        exact unit_suffix hu

def shortEscape? : Char → Option Char
  | '"' => some '"'
  | '\\' => some '\\'
  | '/' => some '/'
  | 'b' => some '\x08'
  | 'f' => some '\x0c'
  | 'n' => some '\n'
  | 'r' => some '\r'
  | 't' => some '\t'
  | _ => none

/-- What follows a backslash. -/
def escape : List Char → Except Fault (Char × List Char)
  | [] => .error .cutShort
  | c :: cs =>
    if c = 'u' then unicodeEscape cs
    else
      match shortEscape? c with
      | some d => .ok (d, cs)
      | none => .error .malformed

theorem escape_suffix {cs rest : List Char} {c : Char} (h : escape cs = .ok (c, rest)) :
    rest <:+ cs := by
  cases cs with
  | nil => cases h
  | cons d cs =>
    simp only [escape] at h
    split at h
    · exact (unicodeEscape_suffix h).trans (List.suffix_cons _ _)
    · split at h
      · cases h
        exact List.suffix_cons _ _
      · cases h

/-- What follows a backslash, in a text that is skipped. -/
def skipEscape : List Char → Except Fault (List Char)
  | [] => .error .cutShort
  | c :: cs =>
    if c = 'u' then (unit cs).map Prod.snd
    else if (shortEscape? c).isSome then .ok cs
    else .error .malformed

theorem skipEscape_suffix {cs rest : List Char} (h : skipEscape cs = .ok rest) : rest <:+ cs := by
  cases cs with
  | nil => cases h
  | cons d cs =>
    simp only [skipEscape] at h
    split at h
    · cases hu : unit cs with
      | error f => simp [hu, Except.map] at h
      | ok r =>
        simp only [hu, Except.map, Except.ok.injEq] at h
        subst h
        exact (unit_suffix hu).trans (List.suffix_cons _ _)
    · split at h
      · cases h
        exact List.suffix_cons _ _
      · cases h

/-- The text up to its closing quote. -/
def readText : List Char → Except Fault (List Char × List Char)
  | [] => .error .cutShort
  | c :: cs =>
    if c = '"' then .ok ([], cs)
    else if c = '\\' then
      match h : escape cs with
      | .error f => .error f
      | .ok (d, rest) =>
        have := (escape_suffix h).length_le
        (readText rest).map fun r => (d :: r.1, r.2)
    else if c < ' ' then .error .malformed
    else (readText cs).map fun r => (c :: r.1, r.2)
termination_by cs => cs.length

theorem readText_suffix {cs text rest : List Char} (h : readText cs = .ok (text, rest)) :
    rest <:+ cs := by
  fun_induction readText cs generalizing text rest with
  | case1 => cases h
  | case2 cs => cases h; exact List.suffix_cons _ _
  | case3 => cases h
  | case4 cs d r he hl _ ih =>
    cases hr : readText r with
    | error f => simp [hr, Except.map] at h
    | ok p =>
      simp only [hr, Except.map, Except.ok.injEq, Prod.mk.injEq] at h
      obtain ⟨_, rfl⟩ := h
      exact ((ih hr).trans (escape_suffix he)).trans (List.suffix_cons _ _)
  | case5 => cases h
  | case6 c cs _ _ _ ih =>
    cases hr : readText cs with
    | error f => simp [hr, Except.map] at h
    | ok p =>
      simp only [hr, Except.map, Except.ok.injEq, Prod.mk.injEq] at h
      obtain ⟨_, rfl⟩ := h
      exact (ih hr).trans (List.suffix_cons _ _)

/-- Leaves out a text up to its closing quote. -/
def skipText : List Char → Except Fault (List Char)
  | [] => .error .cutShort
  | c :: cs =>
    if c = '"' then .ok cs
    else if c = '\\' then
      match h : skipEscape cs with
      | .error f => .error f
      | .ok rest =>
        have := (skipEscape_suffix h).length_le
        skipText rest
    else if c < ' ' then .error .malformed
    else skipText cs
termination_by cs => cs.length

theorem skipText_suffix {cs rest : List Char} (h : skipText cs = .ok rest) : rest <:+ cs := by
  fun_induction skipText cs generalizing rest with
  | case1 => cases h
  | case2 cs => cases h; exact List.suffix_cons _ _
  | case3 => cases h
  | case4 cs r he hl _ ih =>
    exact ((ih h).trans (skipEscape_suffix he)).trans (List.suffix_cons _ _)
  | case5 => cases h
  | case6 c cs _ _ _ ih => exact (ih h).trans (List.suffix_cons _ _)

end ExpiringCache.Json
