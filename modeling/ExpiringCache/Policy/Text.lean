import ExpiringCache.Policy
import ExpiringCache.Time.Text

/-!
# Policies spelled out

The inspection text of a policy: its kind, then its fields in braces. A deadline is shown as the
clock's own reading, or `None` when it is never reached. A custom policy shows nothing of itself.
-/

namespace ExpiringCache.Policy

def deadlineText : Option Instant → String
  | some t => "Some(" ++ t.fieldText ++ ")"
  | none => "None"

def text {η : Type} : Policy η → String
  | .absolute d => "Absolute \x7b expires_at: " ++ deadlineText d ++ " \x7d"
  | .sliding window d =>
    "Sliding \x7b window: " ++ window.unitText ++ ", expires_at: " ++ deadlineText d ++ " \x7d"
  | .duration life d =>
    "Duration \x7b ttl: " ++ life.unitText ++ ", expires_at: " ++ deadlineText d ++ " \x7d"
  | .custom _ => "Custom(..)"

end ExpiringCache.Policy
