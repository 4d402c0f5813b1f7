import LeasedLocks.Proofs.Batches
import LeasedLocks.Proofs.ReportedGrants

/-!
# Trees that have nothing in common

What a tree is answered, and what becomes of its objects, depends on their records alone
(`Table.alone_congr`). So trees without common objects are answered, in whatever order they
come, as if each of them were the only one (`Authority.requestEach_in_any_order`). These are
the trees for which a client asks with one call.
-/

namespace LeasedLocks

/-- All of these trees are valid, and no two of them have an object in common. -/
structure Request.Independent (rs : List Request) : Prop where
  valid : ∀ q ∈ rs, q.validate = .ok ()
  disjoint : rs.Pairwise fun q r => List.Disjoint q.objectIds r.objectIds

variable {default now : Millis} {q r : Request} {rs rs' : List Request} {id : String}

theorem Request.Independent.perm (h : Independent rs) (hp : rs'.Perm rs) : Independent rs' where
  valid q hq := h.valid q (hp.mem_iff.mp hq)
  disjoint := hp.symm.pairwise h.disjoint fun hqr _ hr hq => hqr hq hr

/-- A client asks for independent trees only. -/
theorem Client.independent_of_validate {wait : Option Duration}
    (h : Client.validate rs wait = .ok ()) : Request.Independent rs := by
  have hids := checkIds_of_validate h
  constructor
  case valid => exact fun q hq => validate_of_checkIds hids hq
  case disjoint => exact (List.nodup_flatMap.mp (checkIds_eq_ok_iff.mp hids).2).2

namespace Table

/-- The reply to a valid request that comes alone, and the table afterwards. -/
def alone (t : Table) (default now : Millis) (r : Request) : Reply × Table :=
  t.grant (r.withDefaultLease default) now

variable {t u : Table}

/-! ## One tree -/

theorem verdict_congr {a : Ask} (granted : Bool) (default now : Millis)
    (h : t.get? a.objectId = u.get? a.objectId) :
    t.verdict granted default now a = u.verdict granted default now a := by
  simp only [verdict, answer, h]

theorem get?_foldl_insert_congr {hs : List Holding} (h : t.get? id = u.get? id) :
    (hs.foldl insert t).get? id = (hs.foldl insert u).get? id := by
  induction hs generalizing t u with
  | nil => exact h
  | cons g hs ih =>
      apply ih
      rw [get?_insert, get?_insert, h]

/-- Whatever becomes of a tree, objects that are not in it stay as they are. -/
theorem get?_alone_of_not_mem (hid : id ∉ r.objectIds) :
    (t.alone default now r).2.get? id = t.get? id := by
  by_cases hfree : t.Free r
  · rw [alone, grant_of_free hfree]
    apply get?_foldl_insert_of_not_mem
    intro hmem
    obtain ⟨h, hh, rfl⟩ := List.mem_map.mp hmem
    obtain ⟨n, hn, rfl⟩ := List.mem_map.mp hh
    exact hid (Request.mem_objectIds_iff.mpr ⟨n, hn, rfl⟩)
  · rw [alone, grant_of_not_free hfree]

/-- A tree is decided upon by the records of its own objects, and so is what becomes of
them. -/
theorem alone_congr (h : ∀ id ∈ r.objectIds, t.get? id = u.get? id) :
    (t.alone default now r).1 = (u.alone default now r).1 ∧
      ∀ id ∈ r.objectIds,
        (t.alone default now r).2.get? id = (u.alone default now r).2.get? id := by
  have hreply (granted : Bool) : r.map (t.verdict granted default now) =
      r.map (u.verdict granted default now) :=
    Tree.map_congr r fun a ha =>
      verdict_congr granted default now (h _ (List.mem_map_of_mem ha))
  have hfree_iff : t.Free r ↔ u.Free r := forall₂_congr fun id hid => by rw [h id hid]
  by_cases hfree : t.Free r
  · rw [alone, alone, grant_of_free hfree, grant_of_free (hfree_iff.mp hfree)]
    exact ⟨hreply true, fun id hid => get?_foldl_insert_congr (h id hid)⟩
  · rw [alone, alone, grant_of_not_free hfree, grant_of_not_free (mt hfree_iff.mpr hfree)]
    exact ⟨hreply false, h⟩

/-! ## Several trees -/

/-- Independent trees are answered as if each of them were the only one, and each decides
what becomes of its own objects. -/
theorem processEach_of_independent (hind : Request.Independent rs) (t : Table)
    (default now : Millis) :
    (t.processEach default now rs).1 = .ok (rs.map fun q => (t.alone default now q).1) ∧
    (∀ q ∈ rs, ∀ id ∈ q.objectIds,
      (t.processEach default now rs).2.get? id = (t.alone default now q).2.get? id) ∧
    ∀ id, (∀ q ∈ rs, id ∉ q.objectIds) →
      (t.processEach default now rs).2.get? id = t.get? id := by
  induction rs generalizing t with
  | nil => exact ⟨rfl, fun _ hq => (nomatch hq), fun _ _ => rfl⟩
  | cons r rs ih =>
      obtain ⟨hr, hvalid⟩ := List.forall_mem_cons.mp hind.valid
      obtain ⟨hapart, hdisjoint⟩ := List.pairwise_cons.mp hind.disjoint
      obtain ⟨hreplies, hown, hothers⟩ := ih ⟨hvalid, hdisjoint⟩ (t.alone default now r).2
      have hserve : t.serve r default now =
          (.ok (t.alone default now r).1, (t.alone default now r).2) :=
        serve_of_valid hr t default now
      -- the first tree does not touch the objects of those after it
      have hlater {q : Request} (hq : q ∈ rs) : ∀ id ∈ q.objectIds,
          (t.alone default now r).2.get? id = t.get? id := fun id hid =>
        get?_alone_of_not_mem fun hid' => hapart q hq hid' hid
      have hsame : (rs.map fun q => ((t.alone default now r).2.alone default now q).1) =
          rs.map fun q => (t.alone default now q).1 :=
        List.map_congr_left fun q hq => (alone_congr (hlater hq)).1
      have hstep : t.processEach default now (r :: rs) =
          (.ok ((t.alone default now r).1 :: rs.map fun q => (t.alone default now q).1),
            ((t.alone default now r).2.processEach default now rs).2) := by
        simp only [processEach, hserve, hreplies, hsame]
        rfl
      rw [hstep]
      refine ⟨rfl, ?_, ?_⟩
      · intro q hq id hid
        rcases List.mem_cons.mp hq with rfl | hq
        · exact hothers id fun p hp hid' => hapart p hp hid hid'
        · rw [hown q hq id hid]
          exact (alone_congr (hlater hq)).2 id hid
      · intro id hid
        obtain ⟨hidr, hid⟩ := List.forall_mem_cons.mp hid
        rw [hothers id hid, get?_alone_of_not_mem hidr]

/-- The order of independent trees does not matter to the table. -/
theorem processEach_perm (hind : Request.Independent rs) (hp : rs'.Perm rs) (t : Table) :
    (t.processEach default now rs').2 = (t.processEach default now rs).2 := by
  obtain ⟨-, hown, hothers⟩ := processEach_of_independent hind t default now
  obtain ⟨-, hown', hothers'⟩ := processEach_of_independent (hind.perm hp) t default now
  apply ext_get?
  intro id
  by_cases hid : ∃ q ∈ rs, id ∈ q.objectIds
  · obtain ⟨q, hq, hid⟩ := hid
    rw [hown q hq id hid, hown' q (hp.mem_iff.mpr hq) id hid]
  · have hnone : ∀ q ∈ rs, id ∉ q.objectIds := fun q hq hmem => hid ⟨q, hq, hmem⟩
    rw [hothers id hnone, hothers' id fun q hq => hnone q (hp.mem_iff.mp hq)]

end Table

namespace Authority

variable {a : Authority}

/-! ## At the authority -/

theorem requestAll_of_valid (hv : ∀ q ∈ rs, q.validate = .ok ()) (a : Authority) (now : Millis) :
    a.requestAll rs now = a.requestEach now rs := by
  simp only [requestAll, validateAll_eq_ok_iff.mpr hv]

/-- A valid tree that comes alone is answered on the table without the expired locks. -/
theorem exists_request_alone (hv : r.validate = .ok ()) (a : Authority) (now : Millis) :
    ∃ b, a.request r now = .ok (((a.table.sweep now).2.alone a.defaultLease now r).1, b) ∧
      b.table = ((a.table.sweep now).2.alone a.defaultLease now r).2 :=
  ⟨_, request_of_valid a now hv, rfl⟩

/-- The expired locks are taken away before the first of several trees, and then these are
answered one after the other. -/
theorem requestEach_eq_processEach (hv : ∀ q ∈ rs, q.validate = .ok ()) (a : Authority)
    (now : Millis) :
    (a.requestEach now rs).1 = ((a.table.sweep now).2.processEach a.defaultLease now rs).1 ∧
      (a.requestEach now rs).2.table = if rs = [] then a.table else
        ((a.table.sweep now).2.processEach a.defaultLease now rs).2 := by
  obtain ⟨replies, hreplies, hturn⟩ := answersInTurn_of_valid hv a now
  exact ⟨hreplies.trans hturn.replies_eq.symm, hturn.table_eq⟩

/-- Independent trees do not influence each other: in whatever order they are asked for, with
one message or with several, every one of them gets the reply that it would get alone, and
the table is the same in the end. A client asks for no other trees with one call. -/
theorem requestEach_in_any_order (a : Authority) (now : Millis) (hp : rs'.Perm rs) :
    (∀ wait, Client.validate rs wait = .ok () → Request.Independent rs) ∧
    (Request.Independent rs →
      a.requestAll rs now = a.requestEach now rs ∧
      a.requestAll rs' now = a.requestEach now rs' ∧
      ∃ answer : Request → Reply,
        (a.requestEach now rs).1 = .ok (rs.map answer) ∧
        (a.requestEach now rs').1 = .ok (rs'.map answer) ∧
        (a.requestEach now rs').2.table = (a.requestEach now rs).2.table ∧
        ∀ q ∈ rs, ∃ b, a.request q now = .ok (answer q, b) ∧
          ∀ id ∈ q.objectIds, (a.requestEach now rs).2.table.get? id = b.table.get? id) := by
  refine ⟨fun wait hv => Client.independent_of_validate hv, fun hind => ?_⟩
  have hind' := hind.perm hp
  obtain ⟨hreplies, htable⟩ := requestEach_eq_processEach hind.valid a now
  obtain ⟨hreplies', htable'⟩ := requestEach_eq_processEach hind'.valid a now
  obtain ⟨heach, hown, -⟩ :=
    Table.processEach_of_independent hind (a.table.sweep now).2 a.defaultLease now
  obtain ⟨heach', -, -⟩ :=
    Table.processEach_of_independent hind' (a.table.sweep now).2 a.defaultLease now
  refine ⟨requestAll_of_valid hind.valid a now, requestAll_of_valid hind'.valid a now,
    fun q => ((a.table.sweep now).2.alone a.defaultLease now q).1, hreplies.trans heach,
    hreplies'.trans heach', ?_, ?_⟩
  · have hnil : rs' = [] ↔ rs = [] := by rw [← List.length_eq_zero_iff, hp.length_eq,
      List.length_eq_zero_iff]
    rw [htable, htable', Table.processEach_perm hind hp]
    simp only [hnil]
  · intro q hq
    obtain ⟨b, hrequest, hb⟩ := exists_request_alone (hind.valid q hq) a now
    refine ⟨b, hrequest, fun id hid => ?_⟩
    rw [htable, if_neg (List.ne_nil_of_mem hq), hb]
    exact hown q hq id hid

/-- A tree in which a lock has expired is granted, and one that is held is refused, whichever
of the two comes first. -/
theorem requestEach_beside_held :
    let order := (Request.of "order").linking (Request.of "customer")
    let invoice := Request.of "invoice"
    let a := ofTable {} (Table.ofHoldings
      [Table.record 5 0 (Request.of "customer"), Table.record 60000 0 invoice])
    [invoice, order].Perm [order, invoice] ∧
      Client.validate [order, invoice] none = .ok () ∧
      (a.requestEach 9 [invoice, order]).2.table = (a.requestEach 9 [order, invoice]).2.table ∧
      ∃ x y : Reply, x.isGranted = true ∧ y.isGranted = false ∧
        (a.requestEach 9 [order, invoice]).1 = .ok [x, y] ∧
        (a.requestEach 9 [invoice, order]).1 = .ok [y, x] := by
  intro order invoice a
  have hp : [invoice, order].Perm [order, invoice] := .swap _ _ _
  have hv : Client.validate [order, invoice] none = .ok () := by
    rw [Client.validate, checkIds_eq_ok_iff]
    decide +kernel
  obtain ⟨haccepts, hsame⟩ := requestEach_in_any_order a 9 hp
  obtain ⟨-, -, answer, heach, heach', htable, halone⟩ := hsame (haccepts none hv)
  have hgranted (q : Request) (granted : Bool) (hq : q ∈ [order, invoice])
      (h : (a.request q 9).toOption.map (·.1.isGranted) = some granted) :
      (answer q).isGranted = granted := by
    obtain ⟨b, hrequest, -⟩ := halone q hq
    rw [hrequest] at h
    exact Option.some.inj h
  refine ⟨hp, hv, htable, answer order, answer invoice, ?_, ?_, heach, heach'⟩
  · exact hgranted order true (by simp) (by decide +kernel)
  · exact hgranted invoice false (by simp) (by decide +kernel)

end Authority

end LeasedLocks
