import LeasedLocks.Proofs.Channel
import LeasedLocks.Proofs.History
import Mathlib.Data.Finset.SDiff
import Mathlib.Data.List.Permutation

/-!
# The bulletin as a log of the table

Whoever follows both channels of the bulletin and misses nothing can tell at any
time which objects are locked: `Publication.replay` adds the trees that were granted
to the objects that were locked at first and takes out every batch of freed objects. What is
published when a single deed is done is said by `Authority.Tells`.
-/

namespace LeasedLocks

/-- Something that an authority publishes. That a request was granted is not told,
but it is what counts for the table. -/
inductive Publication where
  | freed (batch : List String)
  | requested (r : Request) (granted : Bool)

namespace Publication

def batch? : Publication → Option (List String)
  | freed batch => some batch
  | requested _ _ => none

def request? : Publication → Option Request
  | freed _ => none
  | requested r _ => some r

/-- No notice for no objects. -/
def ofFreed : List String → List Publication
  | [] => []
  | ids => [freed ids]

/-- What a publication says about the objects that are locked. -/
def apply (locked : Finset String) : Publication → Finset String
  | freed batch => locked \ batch.toFinset
  | requested r true => locked ∪ r.objectIds.toFinset
  | requested _ false => locked

/-- The objects that are locked after these publications. -/
def replay (locked : Finset String) (ps : List Publication) : Finset String :=
  ps.foldl apply locked

@[simp] theorem replay_nil (locked : Finset String) : replay locked [] = locked := rfl

theorem replay_append (locked : Finset String) (ps qs : List Publication) :
    replay locked (ps ++ qs) = replay (replay locked ps) qs := List.foldl_append

theorem replay_ofFreed (locked : Finset String) (ids : List String) :
    replay locked (ofFreed ids) = locked \ ids.toFinset := by
  cases ids with
  | nil => simp [ofFreed]
  | cons id ids => rfl

end Publication

/-- Publishes one thing more. -/
def Bulletin.publish (b : Bulletin) : Publication → Bulletin
  | .freed batch => { b with freed := b.freed.send batch }
  | .requested r _ => b.announceRequest r

namespace Bulletin

theorem foldl_publish_ofFreed (b : Bulletin) (ids : List String) :
    (Publication.ofFreed ids).foldl publish b = b.announceFreed ids := by
  cases ids <;> rfl

/-- Batches and requests each go to the end of their own channel. -/
theorem toList_log_foldl_publish (ps : List Publication) (b : Bulletin) :
    (ps.foldl publish b).freed.log.toList =
        b.freed.log.toList ++ ps.filterMap Publication.batch? ∧
      (ps.foldl publish b).requested.log.toList =
        b.requested.log.toList ++ ps.filterMap Publication.request? := by
  induction ps generalizing b with
  | nil => simp
  | cons p ps ih =>
      obtain ⟨hfreed, hrequested⟩ := ih (b.publish p)
      rw [List.foldl_cons, hfreed, hrequested]
      cases p with
      | freed batch =>
          refine ⟨?_, rfl⟩
          simp [publish, Channel.send, Publication.batch?]
      | requested r granted =>
          refine ⟨rfl, ?_⟩
          simp [publish, announceRequest, Channel.send, Publication.request?]

end Bulletin

namespace Authority

/-- The objects that are locked. -/
def lockedIds (a : Authority) : Finset String := a.table.objectIds.toFinset

/-- From one state of the authority to the next exactly the objects in `ids` were
taken out, and they were announced, unless there are none. -/
structure Frees (a : Authority) (ids : List String) (b : Authority) : Prop where
  nodup : ids.Nodup
  mem_iff : ∀ id, id ∈ ids ↔ a.isLocked id = true ∧ b.isLocked id = false
  kept : ∀ id, id ∉ ids → b.table.get? id = a.table.get? id
  bulletin_eq : b.bulletin = a.bulletin.announceFreed ids

/-- All that a deed publishes. A removal is one batch; a request that is valid is
published as it was made, after what was reaped for it. -/
def Tells (a : Authority) : Deed → Prop
  | .release id cascade => a.Frees (a.release id cascade).1 (a.enact (.release id cascade))
  | .clear => a.Frees a.clear.1 (a.enact .clear)
  | .sweep now => a.Frees (a.sweep now).1 (a.enact (.sweep now))
  | .request r now =>
      (∀ e, r.validate = .error e → a.enact (.request r now) = a) ∧
        (r.validate = .ok () →
          let reaped := (a.sweep now).2
          a.Frees (a.sweep now).1 reaped ∧
          (a.enact (.request r now)).bulletin = reaped.bulletin.announceRequest r ∧
          ∃ reply, a.request r now = .ok (reply, a.enact (.request r now)) ∧
            (a.enact (.request r now)).lockedIds =
              if reply.isGranted then reaped.lockedIds ∪ r.objectIds.toFinset
              else reaped.lockedIds)

/-- What a deed publishes, in order. -/
def publications (a : Authority) : Deed → List Publication
  | .release id cascade => Publication.ofFreed (a.release id cascade).1
  | .clear => Publication.ofFreed a.clear.1
  | .sweep now => Publication.ofFreed (a.sweep now).1
  | .request r now =>
      match a.request r now with
      | .error _ => []
      | .ok (reply, _) => Publication.ofFreed (a.sweep now).1 ++ [.requested r reply.isGranted]

/-- What deeds publish, one after the other. -/
def publicationsOf (a : Authority) : List Deed → List Publication
  | [] => []
  | d :: ds => a.publications d ++ (a.enact d).publicationsOf ds

/-- Somebody who follows both channels of the bulletin, and what was read so far. -/
structure Follower where
  freedPlace : Nat
  requestedPlace : Nat
  freed : List (List String) := []
  requested : List Request := []

/-- Somebody who begins to follow the bulletin. -/
def newFollower (a : Authority) : Follower where
  freedPlace := a.bulletin.freed.sent
  requestedPlace := a.bulletin.requested.sent

/-- Errands are done while somebody reads on in both channels, now and then and
without missing anything. -/
inductive Followed : Authority → Follower → List Errand → Authority → Follower → Prop where
  | rests (a : Authority) (f : Follower) : Followed a f [] a f
  | errand {a b : Authority} {f g : Follower} {e : Errand} {es : List Errand} :
      Followed (a.carryOut e) f es b g → Followed a f (e :: es) b g
  | readsFreed {a b : Authority} {f g : Follower} {es : List Errand} {batch : List String}
      {place : Nat} : a.bulletin.freed.read f.freedPlace = (.item batch, place) →
      Followed a { f with freedPlace := place, freed := f.freed ++ [batch] } es b g →
        Followed a f es b g
  | readsRequested {a b : Authority} {f g : Follower} {es : List Errand} {r : Request}
      {place : Nat} : a.bulletin.requested.read f.requestedPlace = (.item r, place) →
      Followed a { f with requestedPlace := place, requested := f.requested ++ [r] } es b g →
        Followed a f es b g

variable {a b : Authority} {ids : List String} {id : String} {r : Request} {now : Millis}

/-! ## Single deeds -/

theorem mem_lockedIds_iff : id ∈ a.lockedIds ↔ a.isLocked id = true := by
  rw [lockedIds, List.mem_toFinset, Table.mem_objectIds]
  rfl

theorem isLocked_eq_of_get?_eq (h : b.table.get? id = a.table.get? id) :
    b.isLocked id = a.isLocked id := by
  rw [isLocked, isLocked, Table.contains, Table.contains, h]

theorem Frees.lockedIds_eq (h : Frees a ids b) : b.lockedIds = a.lockedIds \ ids.toFinset := by
  ext id
  rw [Finset.mem_sdiff, List.mem_toFinset, mem_lockedIds_iff, mem_lockedIds_iff]
  by_cases hid : id ∈ ids
  · simp [hid, ((h.mem_iff id).mp hid).2]
  · simp [hid, isLocked_eq_of_get?_eq (h.kept id hid)]

/-- A table from which exactly `ids` are missing takes the place of the present one. -/
theorem frees_removed {t : Table} (hnd : ids.Nodup)
    (hlocked : ∀ id ∈ ids, ∃ h, a.table.get? id = some h)
    (hget : ∀ id, t.get? id = if id ∈ ids then none else a.table.get? id) :
    Frees a ids (a.removed (ids, t)).2 where
  nodup := hnd
  mem_iff id := by
    change _ ↔ (a.table.get? id).isSome = true ∧ (t.get? id).isSome = false
    rw [hget]
    constructor
    · intro hid
      obtain ⟨h, e⟩ := hlocked id hid
      simp [hid, e]
    · rintro ⟨hwas, hnot⟩
      by_contra hid
      rw [if_neg hid, hwas] at hnot
      cases hnot
  kept id hid := by
    change t.get? id = _
    rw [hget, if_neg hid]
  bulletin_eq := rfl

theorem frees_release (a : Authority) (id : String) (cascade : Bool) :
    Frees a (a.release id cascade).1 (a.release id cascade).2 :=
  frees_removed (Table.nodup_release a.table id cascade)
    (fun _ hk => Table.exists_get?_of_mem_release hk) (Table.get?_release a.table id cascade)

theorem frees_clear (a : Authority) : Frees a a.clear.1 a.clear.2 := by
  refine frees_removed (t := ∅) Std.ExtTreeMap.nodup_keys ?_ ?_
  · exact fun id hid => Option.isSome_iff_exists.mp (Table.mem_objectIds.mp hid)
  · intro id
    rw [Table.get?_empty]
    split
    · rfl
    · next hid =>
        change id ∉ a.table.objectIds at hid
        rw [Table.mem_objectIds, Bool.not_eq_true, Option.isSome_eq_false_iff] at hid
        exact (Option.isNone_iff_eq_none.mp hid).symm

theorem frees_sweep (a : Authority) (now : Millis) :
    Frees a (a.sweep now).1 (a.sweep now).2 := by
  refine frees_removed (Table.nodup_sweep a.table now) ?_ ?_
  · intro id hid
    obtain ⟨h, e, -⟩ := Table.mem_sweep_iff.mp hid
    exact ⟨h, e⟩
  · intro id
    change (a.table.sweep now).2.get? id = if id ∈ (a.table.sweep now).1 then _ else _
    rw [Table.get?_sweep]
    cases e : a.table.get? id with
    | none => simp
    | some h =>
        have hmem : id ∈ (a.table.sweep now).1 ↔ h.isExpired now = true := by
          rw [Table.mem_sweep_iff, e]
          simp
        by_cases hexp : h.isExpired now = true
        · rw [if_pos (hmem.mpr hexp)]
          simp [hexp]
        · rw [if_neg (hexp ∘ hmem.mp)]
          simp [hexp]

/-- The objects of a tree that is granted become locked, and those of a tree that is
refused stay as they are. -/
theorem lockedIds_of_answered {t : Table} {reply : Reply} {default : Millis}
    (h : a.table.Answered r default now reply t) :
    t.objectIds.toFinset =
      if reply.isGranted then a.lockedIds ∪ r.objectIds.toFinset else a.lockedIds := by
  cases hg : reply.isGranted with
  | false =>
      rw [(h.refused hg).unchanged]
      rfl
  | true =>
      ext id
      rw [if_pos rfl, Finset.mem_union, lockedIds, List.mem_toFinset, List.mem_toFinset,
        List.mem_toFinset, Table.mem_objectIds, Table.mem_objectIds]
      by_cases hid : id ∈ r.objectIds
      · obtain ⟨n, hn, rfl⟩ := Request.mem_objectIds_iff.mp hid
        obtain ⟨k, e, -⟩ := (h.granted hg).records n hn
        simp [e, hid]
      · rw [(h.granted hg).others id hid]
        simp [hid]

theorem tells (a : Authority) (d : Deed) : a.Tells d := by
  cases d with
  | release id cascade => exact frees_release a id cascade
  | clear => exact frees_clear a
  | sweep now => exact frees_sweep a now
  | request r now =>
      constructor
      · intro e hv
        exact enact_request_of_invalid a now hv
      · intro hv
        have hr := request_of_valid a now hv
        have hb := responded_of_request hr
        refine ⟨frees_sweep a now, ?_,
          ((a.sweep now).2.table.grant (r.withDefaultLease a.defaultLease) now).1, ?_, ?_⟩
        · rw [enact_request_of_ok hr]
        · rw [enact_request_of_ok hr]
          exact hr
        · rw [enact_request_of_ok hr]
          exact lockedIds_of_answered hb.answered

/-- The publications of a deed are what was added to the bulletin, and they say which
objects are locked afterwards. -/
theorem publications_enact (a : Authority) (d : Deed) :
    (a.enact d).bulletin = (a.publications d).foldl Bulletin.publish a.bulletin ∧
      (a.enact d).lockedIds = Publication.replay a.lockedIds (a.publications d) := by
  have hfrees {ids : List String} {b : Authority} (h : Frees a ids b) :
      b.bulletin = (Publication.ofFreed ids).foldl Bulletin.publish a.bulletin ∧
        b.lockedIds = Publication.replay a.lockedIds (Publication.ofFreed ids) := by
    rw [Bulletin.foldl_publish_ofFreed, Publication.replay_ofFreed]
    exact ⟨h.bulletin_eq, h.lockedIds_eq⟩
  cases d with
  | release id cascade => exact hfrees (frees_release a id cascade)
  | clear => exact hfrees (frees_clear a)
  | sweep now => exact hfrees (frees_sweep a now)
  | request r now =>
      obtain ⟨hinvalid, hvalid⟩ := a.tells (.request r now)
      cases hv : r.validate with
      | error e =>
          rw [hinvalid e hv]
          simp [publications, request_of_invalid a now hv]
      | ok u =>
          obtain ⟨hf, hbulletin, reply, hr, hlocked⟩ := hvalid hv
          obtain ⟨hb, hl⟩ := hfrees hf
          simp only [publications, hr, List.foldl_append, Publication.replay_append]
          rw [hbulletin, hlocked, ← hb, ← hl]
          refine ⟨rfl, ?_⟩
          cases reply.isGranted <;> rfl

/-- Batches are never empty and never name an object twice. -/
theorem nodup_of_mem_publications {d : Deed} {batch : List String}
    (h : .freed batch ∈ a.publications d) : batch ≠ [] ∧ batch.Nodup := by
  have hof {ids : List String} (hnd : ids.Nodup) (h : .freed batch ∈ Publication.ofFreed ids) :
      batch ≠ [] ∧ batch.Nodup := by
    cases ids with
    | nil => cases h
    | cons id ids =>
        cases List.mem_singleton.mp h
        exact ⟨List.cons_ne_nil id ids, hnd⟩
  cases d with
  | release id cascade => exact hof (frees_release a id cascade).nodup h
  | clear => exact hof (frees_clear a).nodup h
  | sweep now => exact hof (frees_sweep a now).nodup h
  | request r now =>
      simp only [publications] at h
      split at h
      · cases h
      · rcases List.mem_append.mp h with h | h
        · exact hof (frees_sweep a now).nodup h
        · cases List.mem_singleton.mp h

/-! ## Deeds and errands, one after the other -/

theorem publicationsOf_append (a : Authority) (ds es : List Deed) :
    a.publicationsOf (ds ++ es) =
      a.publicationsOf ds ++ (a.enactAll ds).publicationsOf es := by
  induction ds generalizing a with
  | nil => rfl
  | cons d ds ih =>
      rw [List.cons_append, publicationsOf, ih, publicationsOf, List.append_assoc]
      rfl

theorem bulletin_enactAll (a : Authority) (ds : List Deed) :
    (a.enactAll ds).bulletin = (a.publicationsOf ds).foldl Bulletin.publish a.bulletin := by
  induction ds generalizing a with
  | nil => rfl
  | cons d ds ih =>
      rw [enactAll_cons, ih, (a.publications_enact d).1, publicationsOf, List.foldl_append]

theorem lockedIds_enactAll (a : Authority) (ds : List Deed) :
    (a.enactAll ds).lockedIds = Publication.replay a.lockedIds (a.publicationsOf ds) := by
  induction ds generalizing a with
  | nil => rfl
  | cons d ds ih =>
      rw [enactAll_cons, ih, (a.publications_enact d).2, publicationsOf,
        Publication.replay_append]

theorem nodup_of_mem_publicationsOf {ds : List Deed} {batch : List String}
    (h : .freed batch ∈ a.publicationsOf ds) : batch ≠ [] ∧ batch.Nodup := by
  induction ds generalizing a with
  | nil => cases h
  | cons d ds ih =>
      rcases List.mem_append.mp h with h | h
      · exact nodup_of_mem_publications h
      · exact ih h

/-! ## Whoever follows -/

/-- The follower has not read more than was sent. -/
structure Follower.Within (f : Follower) (a : Authority) : Prop where
  freedPlace_le : f.freedPlace ≤ a.bulletin.freed.sent
  requestedPlace_le : f.requestedPlace ≤ a.bulletin.requested.sent

/-- The batches that were read, and those that are still to be read. -/
def Follower.batches (f : Follower) (a : Authority) : List (List String) :=
  f.freed ++ a.bulletin.freed.log.toList.drop f.freedPlace

/-- The requests that were read, and those that are still to be read. -/
def Follower.requests (f : Follower) (a : Authority) : List Request :=
  f.requested ++ a.bulletin.requested.log.toList.drop f.requestedPlace

/-- What is published goes to the end of what a follower has still to read. -/
theorem Follower.enactAll {f : Follower} (hf : f.Within a) (ds : List Deed) :
    f.Within (a.enactAll ds) ∧
      f.batches (a.enactAll ds) =
        f.batches a ++ (a.publicationsOf ds).filterMap Publication.batch? ∧
      f.requests (a.enactAll ds) =
        f.requests a ++ (a.publicationsOf ds).filterMap Publication.request? := by
  obtain ⟨hfreed, hrequested⟩ :=
    Bulletin.toList_log_foldl_publish (a.publicationsOf ds) a.bulletin
  rw [← bulletin_enactAll] at hfreed hrequested
  have hle := hf.freedPlace_le
  have hle' := hf.requestedPlace_le
  simp only [Channel.sent, ← Array.length_toList] at hle hle'
  refine ⟨⟨?_, ?_⟩, ?_, ?_⟩
  · simp only [Channel.sent, ← Array.length_toList, hfreed, List.length_append]
    omega
  · simp only [Channel.sent, ← Array.length_toList, hrequested, List.length_append]
    omega
  · rw [Follower.batches, Follower.batches, hfreed, List.drop_append_of_le_length hle,
      List.append_assoc]
  · rw [Follower.requests, Follower.requests, hrequested,
      List.drop_append_of_le_length hle', List.append_assoc]

/-- Whoever misses nothing has read, or can still read, all that was published. -/
theorem Followed.batches_eq {f g : Follower} {es : List Errand} (h : Followed a f es b g)
    (hf : f.Within a) :
    b = a.carryOutAll es ∧ g.Within b ∧
      g.batches b = f.batches a ++
        (a.publicationsOf (es.flatMap Errand.deeds)).filterMap Publication.batch? ∧
      g.requests b = f.requests a ++
        (a.publicationsOf (es.flatMap Errand.deeds)).filterMap Publication.request? := by
  induction h with
  | rests a f => exact ⟨rfl, hf, (List.append_nil _).symm, (List.append_nil _).symm⟩
  | @errand a b f g e es _ ih =>
      obtain ⟨hwithin, hbatches, hrequests⟩ := Follower.enactAll hf e.deeds
      rw [← carryOut_eq_enactAll] at hwithin hbatches hrequests
      obtain ⟨hb, hg, hbatches', hrequests'⟩ := ih hwithin
      refine ⟨hb, hg, ?_, ?_⟩
      · rw [hbatches', hbatches, List.flatMap_cons, publicationsOf_append,
          List.filterMap_append, ← carryOut_eq_enactAll, List.append_assoc]
      · rw [hrequests', hrequests, List.flatMap_cons, publicationsOf_append,
          List.filterMap_append, ← carryOut_eq_enactAll, List.append_assoc]
  | @readsFreed a b f g es batch place hread _ ih =>
      obtain ⟨-, hle, hdrop⟩ := Channel.drop_of_read hread
      have hbatches : f.batches a =
          Follower.batches { f with freedPlace := place, freed := f.freed ++ [batch] } a := by
        simp only [Follower.batches, hdrop, List.append_assoc, List.singleton_append]
      rw [hbatches]
      exact ih ⟨hle, hf.requestedPlace_le⟩
  | @readsRequested a b f g es r place hread _ ih =>
      obtain ⟨-, hle, hdrop⟩ := Channel.drop_of_read hread
      have hrequests : f.requests a =
          Follower.requests { f with requestedPlace := place, requested := f.requested ++ [r] }
            a := by
        simp only [Follower.requests, hdrop, List.append_assoc, List.singleton_append]
      rw [hrequests]
      exact ih ⟨hf.freedPlace_le, hle⟩

theorem within_newFollower (a : Authority) : a.newFollower.Within a :=
  ⟨Nat.le_refl _, Nat.le_refl _⟩

theorem batches_newFollower (a : Authority) :
    a.newFollower.batches a = [] ∧ a.newFollower.requests a = [] := by
  constructor
  · simp [Follower.batches, newFollower, Channel.sent]
  · simp [Follower.requests, newFollower, Channel.sent]

/-- What a follower from the beginning can rely on after these errands. -/
structure Logged (a : Authority) (es : List Errand) (b : Authority) (f : Follower) : Prop where
  eq_carryOutAll : b = a.carryOutAll es
  /-- The batches and the requests came in the order in which they were published. -/
  freed_isPrefix : f.freed <+:
    (a.publicationsOf (es.flatMap Errand.deeds)).filterMap Publication.batch?
  requested_isPrefix : f.requested <+:
    (a.publicationsOf (es.flatMap Errand.deeds)).filterMap Publication.request?
  /-- None is missing once there is nothing new. -/
  freed_eq : (b.bulletin.freed.read f.freedPlace).1 = .pending → f.freed =
    (a.publicationsOf (es.flatMap Errand.deeds)).filterMap Publication.batch?
  requested_eq : (b.bulletin.requested.read f.requestedPlace).1 = .pending → f.requested =
    (a.publicationsOf (es.flatMap Errand.deeds)).filterMap Publication.request?
  nodup : ∀ batch ∈ f.freed, batch ≠ [] ∧ batch.Nodup
  /-- After every errand what was published until then says what is locked. -/
  replays : ∀ done, done <+: es → (a.carryOutAll done).lockedIds =
    Publication.replay a.lockedIds (a.publicationsOf (done.flatMap Errand.deeds))
  /-- Nothing is published but by a deed that has reason to. -/
  told : ∀ ds d, ds ++ [d] <+: es.flatMap Errand.deeds → (a.enactAll ds).Tells d ∧
    (a.enactAll (ds ++ [d])).bulletin =
      ((a.enactAll ds).publications d).foldl Bulletin.publish (a.enactAll ds).bulletin

/-- The bulletin is a log of the table: whoever follows it from the beginning and
misses nothing can tell what is locked from what was locked at first. -/
theorem follower_replays_table {f : Follower} {es : List Errand}
    (h : Followed a a.newFollower es b f) : Logged a es b f := by
  obtain ⟨hb, -, hbatches, hrequests⟩ := h.batches_eq (within_newFollower a)
  rw [(batches_newFollower a).1, List.nil_append] at hbatches
  rw [(batches_newFollower a).2, List.nil_append] at hrequests
  have hread : f.freed <+: (a.publicationsOf (es.flatMap Errand.deeds)).filterMap
      Publication.batch? := hbatches ▸ List.prefix_append _ _
  constructor
  case eq_carryOutAll => exact hb
  case freed_isPrefix => exact hread
  case requested_isPrefix => exact hrequests ▸ List.prefix_append _ _
  case freed_eq =>
    intro hpending
    rw [← hbatches, Follower.batches, Channel.drop_of_pending hpending, List.append_nil]
  case requested_eq =>
    intro hpending
    rw [← hrequests, Follower.requests, Channel.drop_of_pending hpending, List.append_nil]
  case nodup =>
    intro batch hbatch
    obtain ⟨p, hp, hp'⟩ := List.mem_filterMap.mp (hread.subset hbatch)
    cases p with
    | freed batch' =>
        cases hp'
        exact nodup_of_mem_publicationsOf hp
    | requested r granted => cases hp'
  case replays =>
    intro done _
    rw [carryOutAll_eq_enactAll, lockedIds_enactAll]
  case told =>
    intro ds d _
    refine ⟨tells _ d, ?_⟩
    rw [enactAll_append]
    exact (publications_enact _ d).1

/-- A leased tree is granted and refused, its root is reaped for the next request, which
is refused for the sake of the other object, and then everything is cleared. Whoever
follows reads now and then. -/
theorem logged_of_reaped_and_cleared :
    let r : Request :=
      .node { objectId := "order", lease := some 10 } [.node { objectId := "item" } []]
    let a := Authority.ofTable {} ∅
    let es := [Errand.requestAll [r, r] 100, .request r 111, .clear]
    ∃ b f, Followed a a.newFollower es b f ∧ f.freed = [["order"], ["item"]] ∧
      Logged a es b f := by
  intro r a es
  have hrequested : (a.carryOutAll (es.take 1)).bulletin.requested.read 0 = (.item r, 1) := by
    cbv
  have hreaped : (a.carryOutAll (es.take 2)).bulletin.freed.read 0 = (.item ["order"], 1) := by
    decide +kernel
  have hcleared : (a.carryOutAll es).bulletin.freed.read 1 = (.item ["item"], 2) := by
    decide +kernel
  have hfollowed : Followed a a.newFollower es (a.carryOutAll es)
      { freedPlace := 2, requestedPlace := 1, freed := [["order"], ["item"]],
        requested := [r] } :=
    .errand (.readsRequested hrequested (.errand (.readsFreed hreaped
      (.errand (.readsFreed hcleared (.rests _ _))))))
  exact ⟨_, _, hfollowed, rfl, follower_replays_table hfollowed⟩

end Authority
end LeasedLocks
