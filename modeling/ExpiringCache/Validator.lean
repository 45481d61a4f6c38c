import ExpiringCache.Key
import ExpiringCache.Text.Blank

/-!
# Key validators

Stock rules for which keys a cache accepts.
-/

namespace ExpiringCache

inductive Validator where
  | all
  /-- Keys with a character other than white space. -/
  | nonBlank
  /-- All keys but these. -/
  | deny (keys : List Key)
  /-- Keys of at most so many characters. -/
  | atMost (length : Nat)
deriving DecidableEq

def Validator.accepts : Validator → Key → Bool
  | all, _ => true
  | nonBlank, key => Text.nonBlank key
  | deny keys, key => !keys.contains key
  | atMost length, key => key.length ≤ length

end ExpiringCache
