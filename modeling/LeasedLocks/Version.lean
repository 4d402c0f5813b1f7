/-!
# Version

The number under which the program is known.
-/

namespace LeasedLocks

def version : String := "0.1.0"

end LeasedLocks
