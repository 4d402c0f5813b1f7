import LeasedLocks.Fault
import LeasedLocks.Request
import LeasedLocks.Text.Blank
import Std.Data.ExtTreeSet

/-!
# Valid identifiers

The identifiers of one request must not be blank and must not repeat. A blank
one is reported whatever repeats.
-/

namespace LeasedLocks

/-- Goes through identifiers one after the other, where `seen` came before and `again`
lists those of them that came more than once. A blank one ends it. -/
def checkAfter (seen : Std.ExtTreeSet String) (again : List String) :
    List String → Except Fault Unit
  | [] => if again.isEmpty then .ok () else .error (.repeatedIds again)
  | id :: ids =>
    if isBlank id then .error .blankId
    else
      checkAfter (seen.insert id)
        (if seen.contains id && !again.contains id then again ++ [id] else again) ids

/-- Accepts a list of identifiers of which none is blank and none repeats. -/
def checkIds (ids : List String) : Except Fault Unit := checkAfter ∅ [] ids

/-- Accepts a request whose identifiers are valid. -/
def Request.validate (r : Request) : Except Fault Unit := checkIds r.objectIds

end LeasedLocks
