import ExpiringCache.Text.Ranges

/-!
# White space

The characters with the property White_Space, twenty-five of them. A text is blank when it holds
nothing else; the empty text is blank.
-/

namespace ExpiringCache.Text

def blankRanges : List (Nat × Nat) :=
  [(0x9, 0xd), (0x20, 0x20), (0x85, 0x85), (0xa0, 0xa0), (0x1680, 0x1680), (0x2000, 0x200a),
   (0x2028, 0x2029), (0x202f, 0x202f), (0x205f, 0x205f), (0x3000, 0x3000)]

def isBlank (c : Char) : Bool := inRanges blankRanges c.toNat

/-- Some character of the text is not white space. -/
def nonBlank (s : String) : Bool := s.toList.any (!isBlank ·)

theorem ordered_blankRanges : ordered blankRanges = true := by decide

end ExpiringCache.Text
