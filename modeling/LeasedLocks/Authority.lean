import LeasedLocks.Grant
import LeasedLocks.Removal
import LeasedLocks.Settings

/-!
# The authority over the table

The authority owns the lock table and announces what happens to it. Expired
locks are taken away before a request is looked at, and every removal is
announced as one batch.
-/

namespace LeasedLocks

/-- The lock table together with the bulletin on which its changes are announced. -/
structure Authority where
  settings : AuthoritySettings
  table : Table
  bulletin : Bulletin

namespace Authority

/-- An authority over `table`; nothing is announced yet. -/
def ofTable (settings : AuthoritySettings) (table : Table) : Authority where
  settings := settings
  table := table
  bulletin := .ofCapacity settings.noticeCapacity

/-- The default lease on the lease clock. -/
def defaultLease (a : Authority) : Millis := .ofDuration a.settings.defaultLease

/-- Puts a table from which `ids` were taken in place of the present one, and
announces them. -/
def removed (a : Authority) : List String × Table → List String × Authority
  | (ids, table) => (ids, { a with table, bulletin := a.bulletin.announceFreed ids })

/-- Takes away the locks whose lease ended before `now`. -/
def sweep (a : Authority) (now : Millis) : List String × Authority :=
  a.removed (a.table.sweep now)

/-- Takes one lock away, and with `linked` all that its record leads to. -/
def release (a : Authority) (id : String) (linked : Bool) : List String × Authority :=
  a.removed (a.table.release id linked)

/-- Takes all locks away. -/
def clear (a : Authority) : List String × Authority := a.removed a.table.clear

/-- Answers one after the other; each is announced on its own. -/
def releaseAll (a : Authority) : List Release → List String × Authority
  | [] => ([], a)
  | r :: rs =>
    let (ids, a) := a.release r.objectId r.cascade
    let (more, a) := a.releaseAll rs
    (ids ++ more, a)

/-- Answers a request. The authority afterwards comes with a fault as well as with a
reply. -/
def serve (a : Authority) (r : Request) (now : Millis) : Except Fault Reply × Authority :=
  match r.validate with
  | .error e => (.error e, a)
  | .ok () =>
    let (_, a) := a.sweep now
    match a.table.serve r a.defaultLease now with
    | (.error e, table) => (.error e, { a with table })
    | (.ok reply, table) =>
      (.ok reply, { a with table, bulletin := a.bulletin.announceRequest r })

/-- The reply to a request together with the authority afterwards, unless the request is
at fault. -/
def request (a : Authority) (r : Request) (now : Millis) :
    Except Fault (Reply × Authority) :=
  let (answer, a) := a.serve r now
  answer.map fun reply => (reply, a)

/-- Answers requests one after the other, up to the first that is not valid. -/
def requestEach (a : Authority) (now : Millis) : List Request →
    Except Fault (List Reply) × Authority
  | [] => (.ok [], a)
  | r :: rs =>
    match a.serve r now with
    | (.error e, a) => (.error e, a)
    | (.ok reply, a) =>
      let (rest, a) := a.requestEach now rs
      (rest.map (reply :: ·), a)

/-- The first fault among the requests. -/
def validateAll : List Request → Except Fault Unit
  | [] => .ok ()
  | r :: rs =>
    match r.validate with
    | .error e => .error e
    | .ok () => validateAll rs

/-- Answers requests one after the other if all of them are valid. -/
def requestAll (a : Authority) (rs : List Request) (now : Millis) :
    Except Fault (List Reply) × Authority :=
  match validateAll rs with
  | .error e => (.error e, a)
  | .ok () => a.requestEach now rs

def isLocked (a : Authority) (id : String) : Bool := a.table.contains id

end Authority

end LeasedLocks
