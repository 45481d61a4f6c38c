import ExpiringCache.Config
import ExpiringCache.Decimal.Text
import ExpiringCache.Json.Skip
import ExpiringCache.Text.Quoted

/-!
# Reading a configuration

A configuration is written as a JSON object with two known members, each at most once, or as a
list of their values in order; what is missing takes its default, and members with other names are
left out. Names count as they read once their escapes are resolved. A value of the wrong kind is
described in the complaint about it; of several faults the first one met counts.
-/

namespace ExpiringCache.Config

/-- What was found where something else was expected. -/
inductive Found where
  | null
  | boolean (b : Bool)
  | natural (n : UInt64)
  /-- The number `-n`. -/
  | negative (n : Nat)
  | real (negative : Bool) (magnitude : Binary64)
  | text (s : String)
  | sequence
  | map
deriving DecidableEq

inductive Expected where
  | count
  | flag
  | config
deriving DecidableEq

inductive Field where
  | interval
  | dispose
deriving DecidableEq

inductive Complaint where
  | wrongKind (found : Found) (expected : Expected)
  /-- A count below zero, `-n`. -/
  | belowZero (n : Nat)
  | repeated (field : Field)
deriving DecidableEq

inductive Fault where
  | malformed
  /-- The text ends too early. -/
  | cutShort
  | unfit (complaint : Complaint)
deriving DecidableEq

def Found.shown : Found → String
  | null => "null"
  | boolean b => "boolean `" ++ toString b ++ "`"
  | natural n => "integer `" ++ toString n ++ "`"
  | negative n => "integer `-" ++ toString n ++ "`"
  | real minus m => "floating point `" ++ (if minus then "-" else "") ++ m.text ++ "`"
  | text s => "string " ++ Text.quoted s
  | sequence => "sequence"
  | map => "map"

def Expected.text : Expected → String
  | count => "u64"
  | flag => "a boolean"
  | config => "struct CacheConfig"

def Field.name : Field → String
  | interval => "expiration_timer_interval_ms"
  | dispose => "dispose_values_on_removal"

def Complaint.message : Complaint → String
  | wrongKind found expected =>
    "invalid type: " ++ found.shown ++ ", expected " ++ expected.text
  | belowZero n => "invalid value: integer `-" ++ toString n ++ "`, expected u64"
  | repeated field => "duplicate field `" ++ field.name ++ "`"

def Fault.ofJson : Json.Fault → Fault
  | .malformed => .malformed
  | .cutShort => .cutShort

/-- A reader of JSON as a reader of configurations. -/
def lift {α : Type} : Except Json.Fault α → Except Fault α
  | .ok a => .ok a
  | .error f => .error (.ofJson f)

theorem lift_eq_ok_iff {α : Type} {r : Except Json.Fault α} {a : α} :
    lift r = .ok a ↔ r = .ok a := by
  cases r <;> simp [lift]

def ofNumeral : Json.Numeral → Found
  | .natural n => .natural n
  | .negative n => .negative n
  | .real negative m => .real negative m

/-- The fault of a value that is not what was expected: it is looked at until it is clear what it
is, and may be faulty itself. -/
def mismatch (expected : Expected) (c : Char) (cs : List Char) : Fault :=
  let unfit {α : Type} (r : Except Json.Fault α) (found : α → Found) : Fault :=
    match r with
    | .ok a => .unfit (.wrongKind (found a) expected)
    | .error f => .ofJson f
  if c = 'n' then unfit (Json.literal ['u', 'l', 'l'] cs) fun _ => .null
  else if c = 't' then unfit (Json.literal ['r', 'u', 'e'] cs) fun _ => .boolean true
  else if c = 'f' then unfit (Json.literal ['a', 'l', 's', 'e'] cs) fun _ => .boolean false
  else if c = '-' then unfit (Json.readNumber true cs) fun r => ofNumeral r.1
  else if c.isDigit then unfit (Json.readNumber false (c :: cs)) fun r => ofNumeral r.1
  else if c = '"' then unfit (Json.readText cs) fun r => .text (String.ofList r.1)
  else if c = '[' then .unfit (.wrongKind .sequence expected)
  else if c = '{' then .unfit (.wrongKind .map expected)
  else .malformed

/-- The count that a number stands for. -/
def countOf : Json.Numeral → Except Fault UInt64
  | .natural n => .ok n
  | .negative n => .error (.unfit (.belowZero n))
  | .real negative m => .error (.unfit (.wrongKind (.real negative m) .count))

def readCount (cs : List Char) : Except Fault (UInt64 × List Char) :=
  match Json.skipBlanks cs with
  | [] => .error .cutShort
  | c :: rest =>
    if c = '-' ∨ c.isDigit = true then
      match if c = '-' then Json.readNumber true rest else Json.readNumber false (c :: rest) with
      | .error f => .error (.ofJson f)
      | .ok (n, rest) => (countOf n).map (·, rest)
    else .error (mismatch .count c rest)

theorem readCount_suffix {cs rest : List Char} {n : UInt64} (h : readCount cs = .ok (n, rest)) :
    rest <:+ cs := by
  simp only [readCount] at h
  split at h
  · cases h
  · rename_i c r hb
    have hs := Json.suffix_of_skipBlanks hb
    split at h
    · split at h
      · cases h
      · rename_i m r' hm
        cases hc : countOf m with
        | error f => simp [hc, Except.map] at h
        | ok k =>
          simp only [hc, Except.map, Except.ok.injEq, Prod.mk.injEq] at h
          rw [← h.2]
          split at hm
          · exact ((Json.readNumber_suffix hm).trans (List.suffix_cons _ _)).trans hs
          · exact (Json.readNumber_suffix hm).trans hs
    · cases h

def readFlag (cs : List Char) : Except Fault (Bool × List Char) :=
  match Json.skipBlanks cs with
  | [] => .error .cutShort
  | c :: rest =>
    if c = 't' then (lift (Json.literal ['r', 'u', 'e'] rest)).map (true, ·)
    else if c = 'f' then (lift (Json.literal ['a', 'l', 's', 'e'] rest)).map (false, ·)
    else .error (mismatch .flag c rest)

theorem map_lift_literal_suffix {word cs rest : List Char} {b b' : Bool}
    (h : (lift (Json.literal word cs)).map (b, ·) = .ok (b', rest)) : rest <:+ cs := by
  cases hl : Json.literal word cs with
  | error f => simp [hl, lift, Except.map] at h
  | ok r =>
    simp only [hl, lift, Except.map, Except.ok.injEq, Prod.mk.injEq] at h
    rw [← h.2]
    exact Json.literal_suffix hl

theorem readFlag_suffix {cs rest : List Char} {b : Bool} (h : readFlag cs = .ok (b, rest)) :
    rest <:+ cs := by
  simp only [readFlag] at h
  split at h
  · cases h
  · rename_i c r hb
    have hs := Json.tail_suffix_of_skipBlanks hb
    split at h
    · exact (map_lift_literal_suffix h).trans hs
    · split at h
      · exact (map_lift_literal_suffix h).trans hs
      · cases h

/-- The members that were met so far. -/
structure Members where
  interval : Option UInt64
  dispose : Option Bool
deriving DecidableEq

def Members.none : Members := ⟨.none, .none⟩

def Members.config (m : Members) : Config :=
  ⟨m.interval.getD default.intervalMs, m.dispose.getD default.dispose⟩

/-- The colon between a name and its value. -/
def readColon (cs : List Char) : Except Fault (List Char) :=
  match Json.skipBlanks cs with
  | [] => .error .cutShort
  | c :: rest => if c = ':' then .ok rest else .error .malformed

theorem readColon_suffix {cs rest : List Char} (h : readColon cs = .ok rest) : rest <:+ cs := by
  simp only [readColon] at h
  split at h
  · cases h
  · rename_i hb
    split at h
    · cases h
      exact Json.tail_suffix_of_skipBlanks hb
    · cases h

/-- The value of a member, by the member's name. -/
def readValue (m : Members) (name : String) (cs : List Char) :
    Except Fault (Members × List Char) :=
  if name = Field.interval.name then
    if m.interval.isSome then .error (.unfit (.repeated .interval))
    else
      match readColon cs with
      | .error f => .error f
      | .ok rest => (readCount rest).map fun r => ({ m with interval := some r.1 }, r.2)
  else if name = Field.dispose.name then
    if m.dispose.isSome then .error (.unfit (.repeated .dispose))
    else
      match readColon cs with
      | .error f => .error f
      | .ok rest => (readFlag rest).map fun r => ({ m with dispose := some r.1 }, r.2)
  else
    match readColon cs with
    | .error f => .error f
    | .ok rest => (lift (Json.skipValue rest)).map (m, ·)

/-- Reading a value takes it off the text. -/
theorem readValue_suffix {m m' : Members} {name : String} {cs rest : List Char}
    (h : readValue m name cs = .ok (m', rest)) : rest <:+ cs := by
  simp only [readValue] at h
  split at h
  · split at h
    · cases h
    · split at h
      · cases h
      · rename_i r hr
        cases hc : readCount r with
        | error f => simp [hc, Except.map] at h
        | ok k =>
          simp only [hc, Except.map, Except.ok.injEq, Prod.mk.injEq] at h
          rw [← h.2]
          exact (readCount_suffix hc).trans (readColon_suffix hr)
  · split at h
    · split at h
      · cases h
      · split at h
        · cases h
        · rename_i r hr
          cases hc : readFlag r with
          | error f => simp [hc, Except.map] at h
          | ok k =>
            simp only [hc, Except.map, Except.ok.injEq, Prod.mk.injEq] at h
            rw [← h.2]
            exact (readFlag_suffix hc).trans (readColon_suffix hr)
    · split at h
      · cases h
      · rename_i r hr
        cases hc : Json.skipValue r with
        | error f => simp [hc, lift, Except.map] at h
        | ok k =>
          simp only [hc, lift, Except.map, Except.ok.injEq, Prod.mk.injEq] at h
          rw [← h.2]
          exact (Json.skipValue_suffix hc).trans (readColon_suffix hr)

/-- A member, from after the quote that opens its name. -/
def readMember (m : Members) (cs : List Char) : Except Fault (Members × List Char) :=
  match Json.readText cs with
  | .error f => .error (.ofJson f)
  | .ok (name, rest) => readValue m (String.ofList name) rest

theorem readMember_suffix {m m' : Members} {cs rest : List Char}
    (h : readMember m cs = .ok (m', rest)) : rest <:+ cs := by
  simp only [readMember] at h
  split at h
  · cases h
  · rename_i ht
    exact (readValue_suffix h).trans (Json.readText_suffix ht)

/-- The members of an object, from after the quote that opens the first name, to after the closing
brace. -/
def readMembers (m : Members) (cs : List Char) : Except Fault (Members × List Char) :=
  match h : readMember m cs with
  | .error f => .error f
  | .ok (m, rest) =>
    match hc : Json.skipBlanks rest with
    | [] => .error .cutShort
    | c :: rest' =>
      if c = '}' then .ok (m, rest')
      else if c = ',' then
        match hq : Json.skipBlanks rest' with
        | [] => .error .cutShort
        | q :: rest'' =>
          have := (readMember_suffix h).length_le
          have := Json.length_lt_of_skipBlanks hc
          have := Json.length_lt_of_skipBlanks hq
          if q = '"' then readMembers m rest'' else .error .malformed
      else .error .malformed
termination_by cs.length

/-- An object, from after its opening brace. -/
def readObject (cs : List Char) : Except Fault (Members × List Char) :=
  match Json.skipBlanks cs with
  | [] => .error .cutShort
  | c :: rest =>
    if c = '}' then .ok (.none, rest)
    else if c = '"' then readMembers .none rest
    else .error .malformed

/-- What is left of a list after a value: nothing, or a further value. -/
def nextItem (cs : List Char) : Except Fault (Option (List Char) × List Char) :=
  match Json.skipBlanks cs with
  | [] => .error .cutShort
  | c :: rest =>
    if c = ']' then .ok (.none, rest)
    else if c = ',' then
      match Json.skipBlanks rest with
      | [] => .error .cutShort
      | d :: rest' => if d = ']' then .error .malformed else .ok (some (d :: rest'), [])
    else .error .malformed

/-- The end of a list that can hold no more. -/
def closeList (cs : List Char) : Except Fault (List Char) :=
  match Json.skipBlanks cs with
  | [] => .error .cutShort
  | c :: rest => if c = ']' then .ok rest else .error .malformed

/-- A list, from after its opening bracket: the interval, then the disposal. -/
def readList (cs : List Char) : Except Fault (Members × List Char) :=
  match Json.skipBlanks cs with
  | [] => .error .cutShort
  | c :: rest =>
    if c = ']' then .ok (.none, rest)
    else do
      let (interval, rest) ← readCount (c :: rest)
      match ← nextItem rest with
      | (.none, rest) => return (⟨some interval, .none⟩, rest)
      | (some item, _) =>
        let (dispose, rest) ← readFlag item
        return (⟨some interval, some dispose⟩, ← closeList rest)

/-- A configuration at the front of a text. -/
def readFront (cs : List Char) : Except Fault (Members × List Char) :=
  match Json.skipBlanks cs with
  | [] => .error .cutShort
  | c :: rest =>
    if c = '{' then readObject rest
    else if c = '[' then readList rest
    else .error (mismatch .config c rest)

/-- Reads a configuration that is all there is in the text, blanks apart. -/
def read (text : String) : Except Fault Config := do
  let (members, rest) ← readFront text.toList
  if (Json.skipBlanks rest).isEmpty then return members.config else throw .malformed

end ExpiringCache.Config
