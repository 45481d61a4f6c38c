/-!
# Reading JSON off a text

Readers take what they read off the front of a list of characters, so what they leave is always a
suffix. A text that ends too early and one that is malformed are told apart, and the first fault
met counts. Between the marks of the format, blanks do not signify: space, tab, line feed and
carriage return.
-/

namespace ExpiringCache.Json

inductive Fault where
  | malformed
  /-- The text ends too early. -/
  | cutShort
deriving DecidableEq

def isBlank (c : Char) : Bool := c = ' ' || c = '\n' || c = '\t' || c = '\r'

def skipBlanks (cs : List Char) : List Char := cs.dropWhile isBlank

theorem skipBlanks_suffix (cs : List Char) : skipBlanks cs <:+ cs := List.dropWhile_suffix _

theorem suffix_of_skipBlanks {cs rest : List Char} {c : Char} (h : skipBlanks cs = c :: rest) :
    c :: rest <:+ cs := by
  have hs := skipBlanks_suffix cs
  rwa [h] at hs

theorem tail_suffix_of_skipBlanks {cs rest : List Char} {c : Char}
    (h : skipBlanks cs = c :: rest) : rest <:+ cs :=
  (List.suffix_cons _ _).trans (suffix_of_skipBlanks h)

theorem length_lt_of_skipBlanks {cs rest : List Char} {c : Char}
    (h : skipBlanks cs = c :: rest) : rest.length < cs.length :=
  (suffix_of_skipBlanks h).length_le

theorem skipBlanks_append {ws cs : List Char} (h : ∀ c ∈ ws, isBlank c = true) :
    skipBlanks (ws ++ cs) = skipBlanks cs := by
  induction ws with
  | nil => rfl
  | cons c ws ih =>
    simp only [List.mem_cons, forall_eq_or_imp] at h
    simp only [skipBlanks, List.cons_append, List.dropWhile_cons, h.1, if_true]
    exact ih h.2

/-- The rest of a word, letter by letter. -/
def literal : List Char → List Char → Except Fault (List Char)
  | [], cs => .ok cs
  | _ :: _, [] => .error .cutShort
  | w :: word, c :: cs => if c = w then literal word cs else .error .malformed

theorem literal_eq_ok_iff {word cs rest : List Char} :
    literal word cs = .ok rest ↔ cs = word ++ rest := by
  induction word generalizing cs with
  | nil => simp [literal]
  | cons w word ih =>
    cases cs with
    | nil => simp [literal]
    | cons c cs =>
      by_cases h : c = w
      · simp [literal, h, ih]
      · simp [literal, h]

theorem literal_suffix {word cs rest : List Char} (h : literal word cs = .ok rest) :
    rest <:+ cs := by
  rw [literal_eq_ok_iff.mp h]
  exact List.suffix_append _ _

end ExpiringCache.Json
