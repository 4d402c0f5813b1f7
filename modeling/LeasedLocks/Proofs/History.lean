import LeasedLocks.Authority
import LeasedLocks.Proofs.Granting
import LeasedLocks.Proofs.Reach

/-!
# Histories of an authority

What callers may ask of an authority comes down to four kinds of deeds, one
tree or one object at a time. Whatever is done, no object leaves the table
without being announced (`Announces`).
-/

namespace LeasedLocks

/-- One change that an authority may make to its table. -/
inductive Deed where
  | request (r : Request) (now : Millis)
  | release (id : String) (cascade : Bool)
  | clear
  | sweep (now : Millis)

/-- What a caller may ask of an authority. -/
inductive Errand where
  | request (r : Request) (now : Millis)
  | requestAll (rs : List Request) (now : Millis)
  | release (id : String) (cascade : Bool)
  | releaseAll (rs : List Release)
  | clear
  | sweep (now : Millis)

/-- The deeds of an errand, in order. A list of trees is left alone as a whole
if one of them is not valid. -/
def Errand.deeds : Errand → List Deed
  | request r now => [.request r now]
  | requestAll rs now =>
      match Authority.validateAll rs with
      | .error _ => []
      | .ok () => rs.map (.request · now)
  | release id cascade => [.release id cascade]
  | releaseAll rs => rs.map fun x => .release x.objectId x.cascade
  | clear => [.clear]
  | sweep now => [.sweep now]

namespace Authority

variable {a b c : Authority} {r : Request} {now : Millis} {id : String} {h : Holding}

/-- The authority after a deed. -/
def enact (a : Authority) : Deed → Authority
  | .request r now => (a.serve r now).2
  | .release id cascade => (a.release id cascade).2
  | .clear => a.clear.2
  | .sweep now => (a.sweep now).2

/-- The authority after deeds, one after the other. -/
def enactAll (a : Authority) (ds : List Deed) : Authority := ds.foldl enact a

/-- The authority after an errand. -/
def carryOut (a : Authority) : Errand → Authority
  | .request r now => (a.serve r now).2
  | .requestAll rs now => (a.requestAll rs now).2
  | .release id cascade => (a.release id cascade).2
  | .releaseAll rs => (a.releaseAll rs).2
  | .clear => a.clear.2
  | .sweep now => (a.sweep now).2

/-- The authority after errands, one after the other. -/
def carryOutAll (a : Authority) (es : List Errand) : Authority := es.foldl carryOut a

@[simp] theorem enactAll_nil (a : Authority) : a.enactAll [] = a := rfl

@[simp] theorem enactAll_cons (a : Authority) (d : Deed) (ds : List Deed) :
    a.enactAll (d :: ds) = (a.enact d).enactAll ds := rfl

theorem enactAll_append (a : Authority) (ds es : List Deed) :
    a.enactAll (ds ++ es) = (a.enactAll ds).enactAll es :=
  List.foldl_append

/-! ## One request -/

/-- A valid request is answered on the table from which the expired locks were
taken. -/
theorem serve_of_valid (a : Authority) (now : Millis) (hv : r.validate = .ok ()) :
    let s := (a.sweep now).2
    let g := s.table.grant (r.withDefaultLease a.defaultLease) now
    a.serve r now =
      (.ok g.1, { s with table := g.2, bulletin := s.bulletin.announceRequest r }) := by
  simp only [serve, hv, Table.serve]
  rfl

/-- A request that is not valid changes nothing. -/
theorem serve_of_invalid (a : Authority) (now : Millis) {e : Fault}
    (hv : r.validate = .error e) : a.serve r now = (.error e, a) := by
  simp only [serve, hv]

theorem serve_eq_ok_iff {reply : Reply} :
    a.serve r now = (.ok reply, b) ↔ a.request r now = .ok (reply, b) := by
  unfold request
  cases a.serve r now with
  | mk answer a' => cases answer <;> simp [Except.map]

theorem request_of_valid (a : Authority) (now : Millis) (hv : r.validate = .ok ()) :
    let s := (a.sweep now).2
    let g := s.table.grant (r.withDefaultLease a.defaultLease) now
    a.request r now =
      .ok (g.1, { s with table := g.2, bulletin := s.bulletin.announceRequest r }) :=
  serve_eq_ok_iff.mp (serve_of_valid a now hv)

theorem request_of_invalid (a : Authority) (now : Millis) {e : Fault}
    (hv : r.validate = .error e) : a.request r now = .error e := by
  rw [request, serve_of_invalid a now hv]
  rfl

theorem validate_of_request {reply : Reply} (hr : a.request r now = .ok (reply, b)) :
    r.validate = .ok () := by
  cases hv : r.validate with
  | ok u => rfl
  | error e =>
      rw [request_of_invalid a now hv] at hr
      cases hr

theorem exists_request_of_valid (hv : r.validate = .ok ()) (a : Authority) (now : Millis) :
    ∃ reply b, a.request r now = .ok (reply, b) :=
  ⟨_, _, request_of_valid a now hv⟩

/-- What is known of an authority after a request that was answered. -/
structure Responded (a : Authority) (r : Request) (now : Millis) (reply : Reply)
    (b : Authority) : Prop where
  valid : r.validate = .ok ()
  settings_eq : b.settings = a.settings
  freed_eq : b.bulletin.freed = (a.sweep now).2.bulletin.freed
  requested_eq : b.bulletin.requested = a.bulletin.requested.send r
  answered : (a.sweep now).2.table.Answered r a.defaultLease now reply b.table

@[simp] theorem requested_removed (a : Authority) (ids : List String) (t : Table) :
    (a.removed (ids, t)).2.bulletin.requested = a.bulletin.requested := by
  cases ids <;> rfl

theorem responded_of_request {reply : Reply} (hr : a.request r now = .ok (reply, b)) :
    Responded a r now reply b := by
  have hv := validate_of_request hr
  rw [request_of_valid a now hv] at hr
  cases hr
  constructor
  case valid => exact hv
  case settings_eq => rfl
  case freed_eq => rfl
  case requested_eq => exact congrArg (Channel.send · r) (requested_removed a _ _)
  case answered => exact Table.answered_grant (Request.nodup_of_validate hv)

/-! ## Nothing leaves the table unannounced -/

/-- From `a` to `b` only batches of freed objects were added to the bulletin,
and every object that is gone is named in one of them. -/
structure Announces (a b : Authority) : Prop where
  capacity_eq : b.bulletin.freed.capacity = a.bulletin.freed.capacity
  isClosed_eq : b.bulletin.freed.isClosed = a.bulletin.freed.isClosed
  batches : ∃ batches : List (List String),
    b.bulletin.freed.log.toList = a.bulletin.freed.log.toList ++ batches ∧
      ∀ id h, a.table.get? id = some h → b.table.get? id = none →
        ∃ batch ∈ batches, id ∈ batch

namespace Announces

theorem refl (a : Authority) : Announces a a := by
  refine ⟨rfl, rfl, [], (List.append_nil _).symm, ?_⟩
  intro id h e e'
  rw [e] at e'
  cases e'

theorem trans (hab : Announces a b) (hbc : Announces b c) : Announces a c := by
  obtain ⟨xs, hxs, hx⟩ := hab.batches
  obtain ⟨ys, hys, hy⟩ := hbc.batches
  refine ⟨hbc.capacity_eq.trans hab.capacity_eq, hbc.isClosed_eq.trans hab.isClosed_eq,
    xs ++ ys, by rw [hys, hxs, List.append_assoc], ?_⟩
  intro id h ea ec
  cases eb : b.table.get? id with
  | none =>
      obtain ⟨batch, hb, hid⟩ := hx id h ea eb
      exact ⟨batch, List.mem_append_left _ hb, hid⟩
  | some g =>
      obtain ⟨batch, hb, hid⟩ := hy id g eb ec
      exact ⟨batch, List.mem_append_right _ hb, hid⟩

/-- A table without the announced objects takes the place of the present one. -/
theorem removed (x : List String × Table)
    (hids : ∀ id h, a.table.get? id = some h → x.2.get? id = none → id ∈ x.1) :
    Announces a (a.removed x).2 := by
  obtain ⟨ids, t⟩ := x
  cases ids with
  | nil =>
      refine ⟨rfl, rfl, [], (List.append_nil _).symm, ?_⟩
      intro id h e e'
      cases hids id h e e'
  | cons i is =>
      refine ⟨rfl, rfl, [i :: is], Array.toList_push, ?_⟩
      intro id h e e'
      exact ⟨i :: is, List.mem_singleton_self _, hids id h e e'⟩

theorem sweep (a : Authority) (now : Millis) : Announces a (a.sweep now).2 := by
  apply removed (a.table.sweep now)
  intro id h e e'
  rw [Table.get?_sweep, e] at e'
  refine Table.mem_sweep_iff.mpr ⟨h, e, ?_⟩
  simpa using e'

theorem release (a : Authority) (id : String) (linked : Bool) :
    Announces a (a.release id linked).2 := by
  apply removed (a.table.release id linked)
  intro k h e e'
  rw [Table.get?_release, e] at e'
  split at e'
  · assumption
  · cases e'

theorem clear (a : Authority) : Announces a a.clear.2 := by
  apply removed a.table.clear
  intro id h e _
  change id ∈ a.table.objectIds
  rw [Table.mem_objectIds, e]
  rfl

theorem releaseAll (a : Authority) (rs : List Release) : Announces a (a.releaseAll rs).2 := by
  induction rs generalizing a with
  | nil => exact refl a
  | cons r rs ih => exact (release a r.objectId r.cascade).trans (ih _)

/-- After the sweep a request only adds records. -/
theorem request {reply : Reply} (hr : a.request r now = .ok (reply, b)) : Announces a b := by
  have hb := responded_of_request hr
  have hs := sweep a now
  refine hs.trans ⟨by rw [hb.freed_eq], by rw [hb.freed_eq], [], ?_, ?_⟩
  · rw [hb.freed_eq, List.append_nil]
  · intro id h e e'
    rw [hb.answered.get?_of_get? e] at e'
    cases e'

theorem requestEach (a : Authority) (now : Millis) (rs : List Request) :
    Announces a (a.requestEach now rs).2 := by
  induction rs generalizing a with
  | nil => exact refl a
  | cons r rs ih =>
      cases hv : r.validate with
      | error e =>
          simp only [Authority.requestEach, serve_of_invalid a now hv]
          exact refl a
      | ok u =>
          have hr := serve_of_valid a now hv
          simp only [Authority.requestEach, hr]
          exact (request (serve_eq_ok_iff.mp hr)).trans (ih _)

theorem requestAll (a : Authority) (rs : List Request) (now : Millis) :
    Announces a (a.requestAll rs now).2 := by
  simp only [Authority.requestAll]
  split
  · exact refl a
  · exact requestEach a now rs

theorem enact (a : Authority) (d : Deed) : Announces a (a.enact d) := by
  cases d with
  | request r now =>
      cases hv : r.validate with
      | error e =>
          rw [Authority.enact, serve_of_invalid a now hv]
          exact refl a
      | ok u =>
          have hr := serve_of_valid a now hv
          rw [Authority.enact, hr]
          exact request (serve_eq_ok_iff.mp hr)
  | release id linked => exact release a id linked
  | clear => exact clear a
  | sweep now => exact sweep a now

theorem enactAll (a : Authority) (ds : List Deed) : Announces a (a.enactAll ds) := by
  induction ds generalizing a with
  | nil => exact refl a
  | cons d ds ih => exact (enact a d).trans (ih _)

end Announces

/-! ## Errands as deeds -/

theorem validateAll_eq_ok_iff {rs : List Request} :
    validateAll rs = .ok () ↔ ∀ q ∈ rs, q.validate = .ok () := by
  induction rs with
  | nil => simp [validateAll]
  | cons r rs ih => cases hr : r.validate <;> simp [validateAll, hr, ih]

theorem enact_request_of_ok {reply : Reply} (hr : a.request r now = .ok (reply, b)) :
    a.enact (.request r now) = b :=
  congrArg Prod.snd (serve_eq_ok_iff.mpr hr)

theorem enact_request_of_invalid (a : Authority) (now : Millis) {e : Fault}
    (hv : r.validate = .error e) : a.enact (.request r now) = a :=
  congrArg Prod.snd (serve_of_invalid a now hv)

/-- Valid trees are answered one after the other, to the last. -/
theorem requestEach_of_valid {rs : List Request} (hv : validateAll rs = .ok ()) :
    (a.requestEach now rs).2 = a.enactAll (rs.map (.request · now)) := by
  induction rs generalizing a with
  | nil => rfl
  | cons r rs ih =>
      cases hr : r.validate with
      | error e => simp only [validateAll, hr] at hv; cases hv
      | ok u =>
          simp only [validateAll, hr] at hv
          have hserve := serve_of_valid a now hr
          simp only [requestEach, hserve, List.map_cons, enactAll_cons]
          rw [ih hv, enact, hserve]

/-- Valid trees are answered, every one of them. -/
theorem requestEach_fst_of_valid {rs : List Request} (hv : ∀ q ∈ rs, q.validate = .ok ())
    (a : Authority) (now : Millis) : ∃ replies, (a.requestEach now rs).1 = .ok replies := by
  induction rs generalizing a with
  | nil => exact ⟨[], rfl⟩
  | cons q rs ih =>
      obtain ⟨reply, b, hreq⟩ := exists_request_of_valid (hv q List.mem_cons_self) a now
      obtain ⟨replies, hreplies⟩ := ih (fun q hq => hv q (List.mem_cons_of_mem _ hq)) b
      simp only [requestEach, serve_eq_ok_iff.mpr hreq, hreplies]
      exact ⟨reply :: replies, rfl⟩

theorem releaseAll_eq_enactAll (a : Authority) (rs : List Release) :
    (a.releaseAll rs).2 =
      a.enactAll (rs.map fun x => .release x.objectId x.cascade) := by
  induction rs generalizing a with
  | nil => rfl
  | cons r rs ih => exact ih _

/-- An errand is done by its deeds. -/
theorem carryOut_eq_enactAll (a : Authority) (e : Errand) :
    a.carryOut e = a.enactAll e.deeds := by
  cases e with
  | requestAll rs now =>
      simp only [carryOut, requestAll, Errand.deeds]
      cases hv : validateAll rs with
      | error e => rfl
      | ok u => exact requestEach_of_valid hv
  | releaseAll rs => exact releaseAll_eq_enactAll a rs
  | request r now => rfl
  | release id linked => rfl
  | clear => rfl
  | sweep now => rfl

theorem carryOutAll_eq_enactAll (a : Authority) (es : List Errand) :
    a.carryOutAll es = a.enactAll (es.flatMap Errand.deeds) := by
  induction es generalizing a with
  | nil => rfl
  | cons e es ih =>
      rw [List.flatMap_cons, enactAll_append, ← carryOut_eq_enactAll]
      exact ih _

end Authority

end LeasedLocks
