/-!
# Keys

Entries are stored under texts.
-/

namespace ExpiringCache

abbrev Key := String

end ExpiringCache
