import LeasedLocks.Duration

/-!
# Faults

What can go wrong between a caller and the locks. Not getting a lock in time is
no fault: it is part of the answer.
-/

namespace LeasedLocks

/-- Why a call failed. -/
inductive Fault where
  /-- The caller asked for something senseless. -/
  | invalidRequest (reason : String)
  /-- The listed identifiers were asked for more than once. -/
  | repeatedIds (ids : List String)
  /-- A waiting time of no length. -/
  | invalidWait (wait : Duration)
  /-- The other side refused. -/
  | remote (reason : String)
  /-- The answer does not fit the question. -/
  | unexpectedReply (reason : String)
  /-- The message or its answer got lost. -/
  | transport (reason : String)
  /-- No answer came in time. -/
  | timedOut (limit : Duration)
  /-- The stream of notices could not be opened. -/
  | noStream (reason : String)
  /-- The task that waited for a tree died, and this is the report of it. -/
  | waitLost {report : String}
  deriving DecidableEq, Repr

namespace Fault

/-- The text shown to the caller. -/
def message : Fault → String
  | invalidRequest reason => "Invalid request: " ++ reason
  | repeatedIds ids => "The provided requests contain duplicate object ids: " ++
      ", ".intercalate ids
  | invalidWait wait => "Max waiting time must be greater than zero (got " ++ wait.toText ++ ")"
  | remote reason => "Lock server reported a failure: " ++ reason
  | unexpectedReply reason => "Unexpected response from lock server: " ++ reason
  | transport reason => "Transport error: " ++ reason
  | timedOut limit => "No response from lock server within " ++ limit.toText
  | noStream reason => "Unable to open event stream: " ++ reason
  | @waitLost report => "Transport error: wait task failed: " ++ report

/-- The fault of an identifier that is blank. -/
def blankId : Fault := invalidRequest "object_id must not be empty"

end Fault

end LeasedLocks
