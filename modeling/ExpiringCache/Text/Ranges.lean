/-!
# Tables of code point ranges

A property of characters is given by a list of closed ranges, in order and apart from each other.
-/

namespace ExpiringCache.Text

def inRanges (table : List (Nat × Nat)) (n : Nat) : Bool :=
  table.any fun r => r.1 ≤ n && n ≤ r.2

/-- Each range is not empty and ends before the next begins. -/
def ordered : List (Nat × Nat) → Bool
  | [] => true
  | [r] => r.1 ≤ r.2
  | r :: s :: rest => r.1 ≤ r.2 && r.2 < s.1 && ordered (s :: rest)

end ExpiringCache.Text
