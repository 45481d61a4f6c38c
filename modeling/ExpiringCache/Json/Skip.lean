import ExpiringCache.Json.Number
import ExpiringCache.Json.Text

/-!
# Leaving out a JSON value

A value that nobody asked for is passed over, whatever it holds. The brackets that are open around
the place of reading are kept innermost first, so values may be nested to any depth.
-/

namespace ExpiringCache.Json

inductive Bracket where
  | list
  | object
deriving DecidableEq

/-- What may stand next. -/
inductive Place where
  | value
  /-- A name, a colon and a value. -/
  | member
  /-- What comes after a value: a comma or a closing bracket. -/
  | afterValue
deriving DecidableEq

/-- Leaves out a scalar; `none` where a bracket opens. -/
def skipScalar (c : Char) (cs : List Char) : Except Fault (List Char) :=
  if c = 'n' then literal ['u', 'l', 'l'] cs
  else if c = 't' then literal ['r', 'u', 'e'] cs
  else if c = 'f' then literal ['a', 'l', 's', 'e'] cs
  else if c = '"' then skipText cs
  else if c = '-' then skipNumber cs
  else if c.isDigit then skipNumber (c :: cs)
  else .error .malformed

/-- No scalar is empty. -/
theorem skipScalar_suffix {c : Char} {cs rest : List Char} (h : skipScalar c cs = .ok rest) :
    rest <:+ c :: cs := by
  have hc := List.suffix_cons c cs
  simp only [skipScalar] at h
  split at h
  · exact (literal_suffix h).trans hc
  · split at h
    · exact (literal_suffix h).trans hc
    · split at h
      · exact (literal_suffix h).trans hc
      · split at h
        · exact (skipText_suffix h).trans hc
        · split at h
          · exact (skipNumber_suffix h).trans hc
          · split at h
            · exact skipNumber_suffix h
            · cases h

theorem length_skipNumber_lt {c : Char} {cs rest : List Char}
    (h : skipNumber (c :: cs) = .ok rest) : rest.length ≤ cs.length := by
  simp only [skipNumber] at h
  split at h
  · split at h
    · cases h
    · exact (skipFraction_suffix h).length_le
  · split at h
    · exact ((skipFraction_suffix h).trans (List.dropWhile_suffix _)).length_le
    · cases h

theorem length_skipScalar_le {c : Char} {cs rest : List Char} (h : skipScalar c cs = .ok rest) :
    rest.length ≤ cs.length := by
  simp only [skipScalar] at h
  split at h
  · exact (literal_suffix h).length_le
  · split at h
    · exact (literal_suffix h).length_le
    · split at h
      · exact (literal_suffix h).length_le
      · split at h
        · exact (skipText_suffix h).length_le
        · split at h
          · exact (skipNumber_suffix h).length_le
          · split at h
            · exact length_skipNumber_lt h
            · cases h

/-- The bracket that the character opens, and what stands next inside it. -/
def opens? (c : Char) : Option (Bracket × Place) :=
  if c = '[' then some (.list, .value) else if c = '{' then some (.object, .member) else none

def Bracket.closing : Bracket → Char
  | list => ']'
  | object => '}'

def Bracket.inside : Bracket → Place
  | list => .value
  | object => .member

/-- The name of a member and its colon. -/
def skipName (cs : List Char) : Except Fault (List Char) :=
  match skipText cs with
  | .error f => .error f
  | .ok rest =>
    match skipBlanks rest with
    | [] => .error .cutShort
    | c :: rest => if c = ':' then .ok rest else .error .malformed

theorem skipName_suffix {cs rest : List Char} (h : skipName cs = .ok rest) : rest <:+ cs := by
  simp only [skipName] at h
  split at h
  · cases h
  · rename_i r hr
    split at h
    · cases h
    · rename_i hb
      split at h
      · cases h
        exact (tail_suffix_of_skipBlanks hb).trans (skipText_suffix hr)
      · cases h

/-- Leaves out what stands at `place` inside the open brackets, up to the end of the outermost
value. -/
def skipFrom (outer : List Bracket) (place : Place) (cs : List Char) :
    Except Fault (List Char) :=
  match place, outer with
  | .afterValue, [] => .ok cs
  | .afterValue, b :: outer =>
    match h : skipBlanks cs with
    | [] => .error .cutShort
    | c :: rest =>
      have := length_lt_of_skipBlanks h
      if c = ',' then skipFrom (b :: outer) b.inside rest
      else if c = b.closing then skipFrom outer .afterValue rest
      else .error .malformed
  | .member, outer =>
    match h : skipBlanks cs with
    | [] => .error .cutShort
    | c :: rest =>
      have := length_lt_of_skipBlanks h
      if c = '"' then
        match hn : skipName rest with
        | .error f => .error f
        | .ok rest' =>
          have := (skipName_suffix hn).length_le
          skipFrom outer .value rest'
      else .error .malformed
  | .value, outer =>
    match h : skipBlanks cs with
    | [] => .error .cutShort
    | c :: rest =>
      have := length_lt_of_skipBlanks h
      match opens? c with
      | some (b, inside) =>
        match hi : skipBlanks rest with
        | [] => .error .cutShort
        | d :: rest' =>
          have := length_lt_of_skipBlanks hi
          if d = b.closing then skipFrom outer .afterValue rest'
          else skipFrom (b :: outer) inside rest
      | none =>
        match hs : skipScalar c rest with
        | .error f => .error f
        | .ok rest' =>
          have := length_skipScalar_le hs
          skipFrom outer .afterValue rest'
termination_by cs.length

theorem skipFrom_suffix {outer : List Bracket} {place : Place} {cs rest : List Char}
    (h : skipFrom outer place cs = .ok rest) : rest <:+ cs := by
  fun_induction skipFrom outer place cs generalizing rest with
  | case1 => cases h; exact List.suffix_refl _
  | case2 => cases h
  | case3 =>
    rename_i ih
    exact (ih h).trans (tail_suffix_of_skipBlanks (by assumption))
  | case4 =>
    rename_i ih
    exact (ih h).trans (tail_suffix_of_skipBlanks (by assumption))
  | case5 => cases h
  | case6 => cases h
  | case7 => cases h
  | case8 =>
    rename_i ih
    exact ((ih h).trans (skipName_suffix (by assumption))).trans
      (tail_suffix_of_skipBlanks (by assumption))
  | case9 => cases h
  | case10 => cases h
  | case11 => cases h
  | case12 =>
    rename_i ih
    exact ((ih h).trans (tail_suffix_of_skipBlanks (by assumption))).trans
      (tail_suffix_of_skipBlanks (by assumption))
  | case13 =>
    rename_i ih
    exact (ih h).trans (tail_suffix_of_skipBlanks (by assumption))
  | case14 => cases h
  | case15 =>
    rename_i ih
    exact ((ih h).trans (skipScalar_suffix (by assumption))).trans
      (suffix_of_skipBlanks (by assumption))

/-- Leaves out one value. -/
def skipValue (cs : List Char) : Except Fault (List Char) := skipFrom [] .value cs

theorem skipValue_suffix {cs rest : List Char} (h : skipValue cs = .ok rest) : rest <:+ cs :=
  skipFrom_suffix h

end ExpiringCache.Json
