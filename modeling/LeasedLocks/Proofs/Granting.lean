import LeasedLocks.Grant
import LeasedLocks.Proofs.Tree
import LeasedLocks.Proofs.Validity

/-!
# All of a tree or nothing

A request is refused as a whole or granted as a whole. `Table.Answered` says
node by node what its reply tells and what the table holds afterwards;
`serve_all_or_nothing` says that every valid request is answered in this way.
-/

namespace LeasedLocks

/-- The record is the one of the node `n`, granted at `now`. Its lease ends at
the last date of the clock if it would end after that. -/
structure Holding.Records (h : Holding) (n : Request) (default now : Millis) : Prop where
  objectId_eq : h.objectId = n.objectId
  description_eq : h.description = n.label.description
  holder_eq : h.holder = n.label.requester
  priority_eq : h.priority = n.label.priority
  acquiredAt_eq : h.acquiredAt = now
  autoUnlockAt_eq : h.autoUnlockAt.toNat =
    min (UInt64.size - 1) (now.toNat + (n.label.lease.getD default).toNat)
  linkedIds_eq : h.linkedIds = n.linked.map Request.objectId

namespace Table

/-- The table `t'` is `t` with one more record for each node of `r`, and the
nodes of the reply report the requesters and the deadlines of these records. -/
structure Granted (t : Table) (r : Request) (default now : Millis) (reply : Reply)
    (t' : Table) : Prop where
  records : ∀ n : Request, n ∈ r.nodes →
    ∃ h, t'.get? n.objectId = some h ∧ h.Records n default now
  others : ∀ id, id ∉ r.objectIds → t'.get? id = t.get? id
  size_eq : t'.size = t.size + r.size
  reports : ∀ (n : Request) (x : Reply), (n, x) ∈ r.nodes.zip reply.nodes →
    x.label.holder = n.label.requester ∧
      ∃ h, t'.get? n.objectId = some h ∧ x.label.autoUnlockAt = some h.autoUnlockAt

/-- The table is as it was, and the nodes of the reply report what it holds. -/
structure Refused (t : Table) (r : Request) (reply : Reply) (t' : Table) : Prop where
  unchanged : t' = t
  held : ∀ (n : Request) (x : Reply), (n, x) ∈ r.nodes.zip reply.nodes →
    ∀ h, t.get? n.objectId = some h →
      x.label.holder = h.holder ∧ x.label.autoUnlockAt = some h.autoUnlockAt
  free : ∀ (n : Request) (x : Reply), (n, x) ∈ r.nodes.zip reply.nodes →
    t.get? n.objectId = none →
      x.label.holder = n.label.requester ∧ x.label.autoUnlockAt = none

/-- What the reply to a valid request and the table afterwards are like. -/
structure Answered (t : Table) (r : Request) (default now : Millis) (reply : Reply)
    (t' : Table) : Prop where
  /-- The tree of the request, with its identifiers in their places. -/
  shape : reply.map Answer.objectId = r.map Ask.objectId
  available_iff : ∀ x ∈ reply.labels, x.isAvailable = true ↔ t.get? x.objectId = none
  granted_iff : ∀ x ∈ reply.labels,
    x.isGranted = true ↔ ∀ y ∈ reply.labels, y.isAvailable = true
  granted : reply.isGranted = true → t.Granted r default now reply t'
  refused : reply.isGranted = false → t.Refused r reply t'

/-! ## Filing many records -/

/-- A record whose identifier is new makes the table larger by one. -/
theorem size_insert {t : Table} {h : Holding} (hnew : t.get? h.objectId = none) :
    (t.insert h).size = t.size + 1 := by
  have hmem : h.objectId ∉ t.byId := by
    intro hin
    rw [Std.ExtTreeMap.mem_iff_isSome_getElem?] at hin
    rw [show t.byId[h.objectId]? = none from hnew] at hin
    cases hin
  simp [size, insert, Std.ExtTreeMap.size_insert, hmem]

theorem get?_foldl_insert_of_not_mem {hs : List Holding} {t : Table} {id : String}
    (hid : id ∉ hs.map Holding.objectId) : (hs.foldl insert t).get? id = t.get? id := by
  induction hs generalizing t with
  | nil => rfl
  | cons h hs ih =>
      simp only [List.map_cons, List.mem_cons, not_or] at hid
      rw [List.foldl_cons, ih hid.2, get?_insert, if_neg (Ne.symm hid.1)]

/-- Records with different identifiers do not replace each other. -/
theorem get?_foldl_insert {hs : List Holding} {t : Table}
    (hnd : (hs.map Holding.objectId).Nodup) {h : Holding} (hm : h ∈ hs) :
    (hs.foldl insert t).get? h.objectId = some h := by
  induction hs generalizing t with
  | nil => cases hm
  | cons g hs ih =>
      rw [List.map_cons, List.nodup_cons] at hnd
      rw [List.foldl_cons]
      rcases List.mem_cons.mp hm with rfl | hm
      · rw [get?_foldl_insert_of_not_mem hnd.1, get?_insert, if_pos rfl]
      · exact ih hnd.2 hm

theorem size_foldl_insert {hs : List Holding} {t : Table}
    (hnd : (hs.map Holding.objectId).Nodup) (hnew : ∀ h ∈ hs, t.get? h.objectId = none) :
    (hs.foldl insert t).size = t.size + hs.length := by
  induction hs generalizing t with
  | nil => rfl
  | cons g hs ih =>
      rw [List.map_cons, List.nodup_cons] at hnd
      have hrest : ∀ h ∈ hs, (t.insert g).get? h.objectId = none := by
        intro h hm
        have hne : g.objectId ≠ h.objectId := fun he =>
          hnd.1 (he ▸ List.mem_map_of_mem hm)
        rw [get?_insert, if_neg hne]
        exact hnew h (List.mem_cons_of_mem _ hm)
      rw [List.foldl_cons, ih hnd.2 hrest, size_insert (hnew g List.mem_cons_self),
        List.length_cons]
      omega

/-! ## Answering a tree -/

variable {t : Table} {r : Request} {default now : Millis}

/-- The record that a grant files for a node. -/
def record (default now : Millis) (n : Request) : Holding :=
  .ofRequest n (n.label.lease.getD default) now

theorem records_record (default now : Millis) (n : Request) :
    (record default now n).Records n default now where
  objectId_eq := rfl
  description_eq := rfl
  holder_eq := rfl
  priority_eq := rfl
  acquiredAt_eq := rfl
  autoUnlockAt_eq := Millis.toNat_after now _
  linkedIds_eq := rfl

/-- Granting files the records of all nodes in pre-order. -/
theorem commit_withDefaultLease (t : Table) (r : Request) (default now : Millis) :
    t.commit (r.withDefaultLease default) now =
      (r.nodes.map (record default now)).foldl insert t := by
  rw [commit, Request.withDefaultLease_eq_map, Tree.nodes_map, List.foldl_map, List.foldl_map]
  congr 1
  funext t n
  congr 1
  simp [record, Holding.ofRequest, Request.objectId, Function.comp_def]

/-- Every object of the request is free. -/
def Free (t : Table) (r : Request) : Prop := ∀ id ∈ r.objectIds, t.get? id = none

/-- What a node is answered once the decision about its tree is taken. -/
def verdict (t : Table) (granted : Bool) (default now : Millis) (a : Ask) : Answer :=
  (t.answer now { a with lease := some (a.lease.getD default) }).settle granted

@[simp] theorem objectId_verdict (granted : Bool) (a : Ask) :
    (t.verdict granted default now a).objectId = a.objectId := by
  simp [verdict]

@[simp] theorem isGranted_verdict (granted : Bool) (a : Ask) :
    (t.verdict granted default now a).isGranted = granted := rfl

theorem isAvailable_verdict_iff (granted : Bool) (a : Ask) :
    (t.verdict granted default now a).isAvailable = true ↔ t.get? a.objectId = none := by
  simp [verdict, Answer.settle, isAvailable_answer]

/-- A free node of a granted tree learns its requester and its deadline. -/
theorem verdict_of_free (default now : Millis) {a : Ask} (h : t.get? a.objectId = none) :
    (t.verdict true default now a).holder = a.requester ∧
      (t.verdict true default now a).autoUnlockAt =
        some (.after now (a.lease.getD default)) := by
  simp [verdict, Answer.settle, answer, h]

/-- A held node of a refused tree learns the holder and the deadline. -/
theorem verdict_of_held {a : Ask} {h : Holding} (e : t.get? a.objectId = some h) :
    (t.verdict false default now a).holder = h.holder ∧
      (t.verdict false default now a).autoUnlockAt = some h.autoUnlockAt := by
  simp [verdict, Answer.settle, answer, e]

/-- A free node of a refused tree learns no deadline. -/
theorem verdict_of_refused {a : Ask} (h : t.get? a.objectId = none) :
    (t.verdict false default now a).holder = a.requester ∧
      (t.verdict false default now a).autoUnlockAt = none := by
  simp [verdict, Answer.settle, answer, h]

theorem settle_evaluate (t : Table) (r : Request) (granted : Bool) (default now : Millis) :
    (t.evaluate (r.withDefaultLease default) now).settle granted =
      r.map (t.verdict granted default now) := by
  rw [evaluate, Request.withDefaultLease_eq_map, Reply.settle_eq_map, Tree.map_map, Tree.map_map]
  rfl

theorem isFree_evaluate_iff :
    (t.evaluate (r.withDefaultLease default) now).isFree = true ↔ t.Free r := by
  simp [Reply.isFree, evaluate, Request.withDefaultLease_eq_map, isAvailable_answer, Free,
    Request.objectIds]

/-- A tree of free objects is granted. -/
theorem grant_of_free (h : t.Free r) :
    t.grant (r.withDefaultLease default) now =
      (r.map (t.verdict true default now),
        (r.nodes.map (record default now)).foldl insert t) := by
  have hfree : (t.evaluate (r.withDefaultLease default) now).isFree = true :=
    isFree_evaluate_iff.mpr h
  simp only [grant, hfree, if_true, settle_evaluate, commit_withDefaultLease]

/-- A tree with an object that is held is refused. -/
theorem grant_of_not_free (h : ¬ t.Free r) :
    t.grant (r.withDefaultLease default) now = (r.map (t.verdict false default now), t) := by
  have hfree : ¬ (t.evaluate (r.withDefaultLease default) now).isFree = true := fun hf =>
    h (isFree_evaluate_iff.mp hf)
  simp only [grant, if_neg hfree, settle_evaluate]

/-- The answers tell by themselves whether the tree was free. -/
theorem forall_available_iff (granted : Bool) :
    (∀ y ∈ (r.map (t.verdict granted default now)).labels, y.isAvailable = true) ↔
      t.Free r := by
  simp only [Tree.labels_map, List.forall_mem_map, isAvailable_verdict_iff, Free,
    Request.objectIds]

theorem isGranted_map_verdict (granted : Bool) :
    Reply.isGranted (r.map (t.verdict granted default now)) = granted := by
  simp [Reply.isGranted]

/-- The records of the nodes are new and differ in their identifiers. -/
theorem granted_of_free (hnd : r.objectIds.Nodup) (h : t.Free r) :
    t.Granted r default now (r.map (t.verdict true default now))
      ((r.nodes.map (record default now)).foldl insert t) := by
  have hids : (r.nodes.map (record default now)).map Holding.objectId = r.objectIds := by
    simp [record, Request.objectIds, Tree.labels, Request.objectId, Function.comp_def]
  have hfiled : ∀ n : Request, n ∈ r.nodes →
      ((r.nodes.map (record default now)).foldl insert t).get? n.objectId =
        some (record default now n) := fun n hn =>
    get?_foldl_insert (by rw [hids]; exact hnd) (List.mem_map_of_mem hn)
  constructor
  case records =>
    intro n hn
    exact ⟨_, hfiled n hn, records_record default now n⟩
  case others =>
    intro id hid
    exact get?_foldl_insert_of_not_mem (by rw [hids]; exact hid)
  case size_eq =>
    rw [size_foldl_insert (by rw [hids]; exact hnd), List.length_map, Tree.length_nodes]
    intro g hg
    apply h
    rw [← hids]
    exact List.mem_map_of_mem hg
  case reports =>
    intro n x hx
    obtain ⟨hn, rfl⟩ := Tree.mem_zip_nodes_map hx
    have hfree : t.get? n.label.objectId = none :=
      h _ (List.mem_map_of_mem (Tree.label_mem_labels hn))
    obtain ⟨hholder, hdeadline⟩ := verdict_of_free default now hfree
    rw [Tree.label_map]
    exact ⟨hholder, _, hfiled n hn, hdeadline⟩

theorem refused_self : t.Refused r (r.map (t.verdict false default now)) t := by
  constructor
  case unchanged => rfl
  case held =>
    intro n x hx h e
    obtain ⟨-, rfl⟩ := Tree.mem_zip_nodes_map hx
    rw [Tree.label_map]
    exact verdict_of_held e
  case free =>
    intro n x hx e
    obtain ⟨-, rfl⟩ := Tree.mem_zip_nodes_map hx
    rw [Tree.label_map]
    exact verdict_of_refused e

/-- A tree without repeated identifiers is answered as a whole. -/
theorem answered_grant (hnd : r.objectIds.Nodup) :
    t.Answered r default now (t.grant (r.withDefaultLease default) now).1
      (t.grant (r.withDefaultLease default) now).2 := by
  have hshape (granted : Bool) :
      (r.map (t.verdict granted default now)).map Answer.objectId = r.map Ask.objectId := by
    rw [Tree.map_map]
    congr 1
    funext a
    exact objectId_verdict granted a
  have havail (granted : Bool) :
      ∀ x ∈ (r.map (t.verdict granted default now)).labels,
        x.isAvailable = true ↔ t.get? x.objectId = none := by
    intro x hx
    rw [Tree.labels_map, List.mem_map] at hx
    obtain ⟨a, -, rfl⟩ := hx
    rw [isAvailable_verdict_iff, objectId_verdict]
  have hlabel (granted : Bool) :
      ∀ x ∈ (r.map (t.verdict granted default now)).labels, x.isGranted = granted := by
    intro x hx
    rw [Tree.labels_map, List.mem_map] at hx
    obtain ⟨a, -, rfl⟩ := hx
    rfl
  by_cases h : t.Free r
  · rw [grant_of_free h]
    refine ⟨hshape true, havail true, ?_, fun _ => granted_of_free hnd h, ?_⟩
    · intro x hx
      rw [hlabel true x hx, forall_available_iff]
      simp [h]
    · intro hf
      rw [isGranted_map_verdict] at hf
      cases hf
  · rw [grant_of_not_free h]
    refine ⟨hshape false, havail false, ?_, ?_, fun _ => refused_self⟩
    · intro x hx
      rw [hlabel false x hx, forall_available_iff]
      simp [h]
    · intro hg
      rw [isGranted_map_verdict] at hg
      cases hg

/-! ## What the answers imply -/

namespace Answered

variable {reply : Reply} {t' : Table} {id : String} {h : Holding}

theorem objectIds_eq (ha : t.Answered r default now reply t') :
    reply.objectIds = r.objectIds := by
  have hs := congrArg Tree.labels ha.shape
  rwa [Tree.labels_map, Tree.labels_map] at hs

theorem free_of_granted (ha : t.Answered r default now reply t')
    (hg : reply.isGranted = true) : t.Free r := by
  intro id hid
  rw [← ha.objectIds_eq] at hid
  obtain ⟨y, hy, rfl⟩ := List.mem_map.mp hid
  have hall := (ha.granted_iff reply.label (Tree.label_mem_labels_self reply)).mp hg
  exact (ha.available_iff y hy).mp (hall y hy)

/-- No request replaces a record. -/
theorem get?_of_get? (ha : t.Answered r default now reply t') (e : t.get? id = some h) :
    t'.get? id = some h := by
  cases hg : reply.isGranted with
  | false => rw [(ha.refused hg).unchanged, e]
  | true =>
      have hid : id ∉ r.objectIds := by
        intro hmem
        rw [ha.free_of_granted hg id hmem] at e
        cases e
      rw [(ha.granted hg).others id hid, e]

/-- What a request adds to the table has not expired at its date. -/
theorem not_expired_of_new (ha : t.Answered r default now reply t')
    (hnew : t.get? id = none) (e : t'.get? id = some h) : ¬ h.autoUnlockAt < now := by
  cases hg : reply.isGranted with
  | false =>
      rw [(ha.refused hg).unchanged, hnew] at e
      cases e
  | true =>
      have hgr := ha.granted hg
      by_cases hid : id ∈ r.objectIds
      · obtain ⟨n, hn, rfl⟩ := Request.mem_objectIds_iff.mp hid
        obtain ⟨k, ek, hk⟩ := hgr.records n hn
        rw [e] at ek
        cases ek
        rw [UInt64.lt_iff_toNat_lt, hk.autoUnlockAt_eq]
        have := UInt64.toNat_lt_size now
        omega
      · rw [hgr.others id hid, hnew] at e
        cases e

/-- A refusal names an object of the tree that somebody holds. -/
theorem exists_unavailable (ha : t.Answered r default now reply t')
    (hg : reply.isGranted = false) : ∃ id ∈ r.objectIds, id ∈ reply.unavailableIds := by
  have hne : reply.unavailableIds ≠ [] := by
    intro hnil
    have hfree : reply.isFree = true := Reply.isFree_iff.mpr hnil
    have hroot := ha.granted_iff reply.label (Tree.label_mem_labels_self reply)
    have hgranted : reply.isGranted = true := hroot.mpr (List.all_eq_true.mp hfree)
    rw [hgranted] at hg
    cases hg
  obtain ⟨id, hid⟩ := List.exists_mem_of_ne_nil _ hne
  refine ⟨id, ?_, hid⟩
  rw [← ha.objectIds_eq]
  obtain ⟨y, hy, rfl⟩ := List.mem_map.mp hid
  exact List.mem_map_of_mem (List.mem_filter.mp hy).1

/-- What a reply calls unavailable is locked afterwards. -/
theorem exists_get?_of_unavailable (ha : t.Answered r default now reply t')
    (hid : id ∈ reply.unavailableIds) : ∃ h, t'.get? id = some h := by
  obtain ⟨y, hy, rfl⟩ := List.mem_map.mp hid
  rw [List.mem_filter] at hy
  cases e : t.get? y.objectId with
  | none =>
      have havail := (ha.available_iff y hy.1).mpr e
      simp [havail] at hy
  | some h => exact ⟨h, ha.get?_of_get? e⟩

end Answered

/-! ## Requests -/

/-- A valid request is decided on with the default lease filled in. -/
theorem serve_of_valid (hv : r.validate = .ok ()) (t : Table) (default now : Millis) :
    t.serve r default now =
      (.ok (t.grant (r.withDefaultLease default) now).1,
        (t.grant (r.withDefaultLease default) now).2) := by
  simp only [serve, hv]

/-- A request that is not valid changes nothing. -/
theorem serve_of_invalid {e : Fault} (hv : r.validate = .error e) (t : Table)
    (default now : Millis) : t.serve r default now = (.error e, t) := by
  simp only [serve, hv]

theorem serve_eq_ok_iff :
    t.serve r default now = (.ok reply, t') ↔ t.process r default now = .ok (reply, t') := by
  unfold process
  cases t.serve r default now with
  | mk answer u => cases answer <;> simp [Except.map]

/-- Exactly the requests that are not valid fail, with the fault that makes them
invalid, and change nothing. Every valid one is answered, and as a whole. -/
theorem serve_all_or_nothing (t : Table) (r : Request) (default now : Millis) :
    (∀ e, (t.serve r default now).1 = .error e ↔ r.validate = .error e) ∧
      (∀ e, (t.serve r default now).1 = .error e → (t.serve r default now).2 = t) ∧
      (r.validate = .ok () →
        ∃ reply t', t.serve r default now = (.ok reply, t') ∧
          t.process r default now = .ok (reply, t') ∧ t.Answered r default now reply t') := by
  cases hv : r.validate with
  | error e =>
      rw [serve_of_invalid hv]
      refine ⟨fun e' => by simp, fun _ _ => rfl, ?_⟩
      intro h
      cases h
  | ok u =>
      have hserve := serve_of_valid hv t default now
      refine ⟨?_, ?_, ?_⟩
      · intro e
        rw [hserve]
        simp
      · intro e h
        rw [hserve] at h
        cases h
      · intro _
        exact ⟨_, _, hserve, serve_eq_ok_iff.mp hserve,
          answered_grant (Request.nodup_of_validate hv)⟩

/-- Two linked objects of which one is held. -/
theorem serve_pair_answered :
    let r := (Request.of "order").linking (Request.of "customer")
    let t := Table.ofHoldings [record 60000 1000 (Request.of "customer")]
    r.validate = .ok () ∧
      ∃ reply t', t.serve r 60000 2000 = (.ok reply, t') ∧
        t.process r 60000 2000 = .ok (reply, t') ∧ t.Answered r 60000 2000 reply t' := by
  have hv : ((Request.of "order").linking (Request.of "customer")).validate = .ok () := by
    rw [Request.validate, checkIds_eq_ok_iff]
    decide +kernel
  exact ⟨hv, (serve_all_or_nothing _ _ _ _).2.2 hv⟩

end Table

end LeasedLocks
