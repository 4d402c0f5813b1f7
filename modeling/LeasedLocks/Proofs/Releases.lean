import LeasedLocks.Proofs.Granting
import LeasedLocks.Proofs.History

/-!
# What releases with links come to

A release with links of the object at the top of a granted tree takes the grant back: the
tree goes out in pre-order, and nothing else does (`Table.release_undoes_process`). Several
releases with links are one cascade from all of their objects, so it does not matter in
which order they come and how often (`Authority.releaseAll_in_any_order`).
-/

namespace LeasedLocks

namespace Table

/-- Every node of these trees is locked, and its record names the nodes right below it. -/
def HoldsTrees (t : Table) (trees : List Request) : Prop :=
  ∀ n : Request, n ∈ Tree.walk trees →
    ∃ h, t.get? n.objectId = some h ∧ h.linkedIds = n.linked.map Request.objectId

variable {t t' : Table} {r : Request} {default now : Millis} {reply : Reply}
  {trees : List Request}

/-! ## Cascades through trees -/

/-- A cascade from the roots of trees goes through the trees as their walk does, whatever
else the table links to them. -/
theorem cascade_of_holdsTrees (hf : t.HoldsTrees trees)
    (hnd : ((Tree.walk trees).map Request.objectId).Nodup) :
    (t.cascade (trees.map Request.objectId)).1 = (Tree.walk trees).map Request.objectId := by
  induction trees using Tree.walk.induct generalizing t with
  | case1 => simp [cascade]
  | case2 a ts rest ih =>
      unfold HoldsTrees at hf
      rw [Tree.walk_cons] at hnd hf ⊢
      rw [List.map_cons, List.nodup_cons] at hnd
      obtain ⟨hroot, hnd⟩ := hnd
      obtain ⟨h, e, hlinks⟩ := hf (.node a ts) List.mem_cons_self
      -- without the record of the root, those of the other nodes are still there
      have hrest : (t.erase (Request.objectId (.node a ts))).HoldsTrees (ts ++ rest) := by
        intro n hn
        obtain ⟨g, eg, hg⟩ := hf n (List.mem_cons_of_mem _ hn)
        refine ⟨g, ?_, hg⟩
        rw [get?_erase, if_neg]
        · exact eg
        · intro heq
          exact hroot (heq ▸ List.mem_map_of_mem hn)
      have hstep := ih hrest hnd
      rw [List.map_append] at hstep
      rw [List.map_cons, cascade_cons_some e, hlinks, Tree.linked_node, hstep, List.map_cons]

theorem process_of_valid (t : Table) (default now : Millis) (hv : r.validate = .ok ()) :
    t.process r default now = .ok (t.grant (r.withDefaultLease default) now) :=
  serve_eq_ok_iff.mp (serve_of_valid hv t default now)

/-- Only a valid request is processed, and it is answered as a whole. -/
theorem answered_of_process (hp : t.process r default now = .ok (reply, t')) :
    r.validate = .ok () ∧ t.Answered r default now reply t' := by
  cases hv : r.validate with
  | error e =>
      rw [process, serve_of_invalid hv] at hp
      cases hp
  | ok u =>
      rw [process_of_valid t default now hv] at hp
      have hanswered : t.Answered r default now _ _ :=
        answered_grant (Request.nodup_of_validate hv)
      rw [Except.ok.inj hp] at hanswered
      exact ⟨rfl, hanswered⟩

/-- The tree of a grant goes out as it came in: a release of its root, with all that is
linked to it, takes out the objects of the tree in pre-order and leaves the table as it was
before the grant. -/
theorem release_undoes_process (hp : t.process r default now = .ok (reply, t'))
    (hg : reply.isGranted = true) : t'.release r.objectId true = (r.objectIds, t) := by
  obtain ⟨hv, hanswered⟩ := answered_of_process hp
  have hgranted := hanswered.granted hg
  have hwalk : (Tree.walk [r]).map Request.objectId = r.objectIds := by
    simp [Request.objectIds, Tree.labels, Tree.nodes, Request.objectId]
  have hholds : t'.HoldsTrees [r] := by
    intro n hn
    obtain ⟨h, e, hrecords⟩ := hgranted.records n hn
    exact ⟨h, e, hrecords.linkedIds_eq⟩
  have hids : (t'.cascade [r.objectId]).1 = r.objectIds := by
    rw [← hwalk]
    apply cascade_of_holdsTrees hholds
    rw [hwalk]
    exact Request.nodup_of_validate hv
  change t'.cascade [r.objectId] = _
  apply Prod.ext
  · exact hids
  · apply ext_get?
    intro id
    rw [get?_cascade, hids]
    split
    · next hid => exact (hanswered.free_of_granted hg id hid).symm
    · next hid => exact hgranted.others id hid

/-- A record that is linked to these objects. -/
def linkedTo (id : String) (linkedIds : List String) : Holding :=
  { record 60000 0 (Request.of id) with linkedIds }

/-- A tree is taken back from under a record that was linked to two of its objects. -/
theorem release_undoes_linked_order :
    let r := ((Request.of "order").linking
      ((Request.of "customer").linking (Request.of "address"))).linking (Request.of "invoice")
    let t := ofHoldings [linkedTo "audit" ["customer", "audit", "order"]]
    ∃ reply t', t.process r 60000 5 = .ok (reply, t') ∧ reply.isGranted = true ∧
      t'.release "order" true = (["order", "customer", "address", "invoice"], t) := by
  intro r t
  have hv : r.validate = .ok () := by
    rw [Request.validate, checkIds_eq_ok_iff]
    decide +kernel
  have hp := t.process_of_valid 60000 5 hv
  have hg : (t.grant (r.withDefaultLease 60000) 5).1.isGranted = true := by decide +kernel
  have hids : r.objectIds = ["order", "customer", "address", "invoice"] := by decide +kernel
  exact ⟨_, _, hp, hg, hids ▸ release_undoes_process hp hg⟩

/-! ## Cascades one after the other -/

/-- A cascade from the objects of two lists is one from the first and then one from the
second. -/
theorem cascade_append (t : Table) (xs ys : List String) :
    t.cascade (xs ++ ys) =
      ((t.cascade xs).1 ++ ((t.cascade xs).2.cascade ys).1, ((t.cascade xs).2.cascade ys).2) := by
  induction t, xs using cascade.induct with
  | case1 t =>
      rw [cascade.eq_1 t]
      rfl
  | case2 t id rest e ih => rw [List.cons_append, cascade_cons_none e, cascade_cons_none e, ih]
  | case3 t id rest h e _ _ _ ih =>
      rw [List.cons_append, cascade_cons_some e, cascade_cons_some e, ← List.append_assoc, ih]
      rfl

/-- Whoever starts from the same objects takes out the same. -/
theorem cascade_congr {xs ys : List String} (t : Table) (h : ∀ id, id ∈ xs ↔ id ∈ ys) :
    (t.cascade xs).1.Perm (t.cascade ys).1 ∧ (t.cascade xs).2 = (t.cascade ys).2 := by
  have hmem (k : String) : k ∈ (t.cascade xs).1 ↔ k ∈ (t.cascade ys).1 := by
    simp only [mem_cascade_iff, h]
  refine ⟨(List.perm_ext_iff_of_nodup (nodup_cascade xs) (nodup_cascade ys)).mpr hmem, ?_⟩
  apply ext_get?
  intro k
  simp only [get?_cascade, hmem]

end Table

namespace Authority

variable {a : Authority} {rs : List Release}

/-- Releases with links are one cascade from all of their objects. -/
theorem releaseAll_eq_cascade (a : Authority) (hrs : ∀ r ∈ rs, r.cascade = true) :
    ((a.releaseAll rs).1, (a.releaseAll rs).2.table) =
      a.table.cascade (rs.map Release.objectId) := by
  induction rs generalizing a with
  | nil => simp [releaseAll, Table.cascade]
  | cons r rs ih =>
      obtain ⟨hr, hrest⟩ := List.forall_mem_cons.mp hrs
      have hfirst : ((a.release r.objectId r.cascade).1,
          (a.release r.objectId r.cascade).2.table) = a.table.cascade [r.objectId] := by
        rw [hr]
        rfl
      have hlater := ih (a.release r.objectId r.cascade).2 hrest
      rw [List.map_cons, ← List.singleton_append (x := r.objectId), Table.cascade_append,
        ← hfirst, ← hlater]
      rfl

/-- Releases with links take out, each once, the objects that links lead to from any of the
objects released, in the table as it was before the first of them, and leave all else as it
is. In another order, or with some of them repeated, they take out the same objects and
leave the same table. -/
theorem releaseAll_in_any_order (a : Authority) (hrs : ∀ r ∈ rs, r.cascade = true) :
    (a.releaseAll rs).1.Nodup ∧
    (∀ k, k ∈ (a.releaseAll rs).1 ↔ ∃ r ∈ rs, a.table.Leads r.objectId k) ∧
    (∀ k, (a.releaseAll rs).2.table.get? k =
      if k ∈ (a.releaseAll rs).1 then none else a.table.get? k) ∧
    ∀ rs' : List Release, (∀ r, r ∈ rs' ↔ r ∈ rs) →
      (a.releaseAll rs').1.Perm (a.releaseAll rs).1 ∧
        (a.releaseAll rs').2.table = (a.releaseAll rs).2.table := by
  obtain ⟨hids, htable⟩ := Prod.mk.inj (releaseAll_eq_cascade a hrs)
  rw [hids, htable]
  refine ⟨Table.nodup_cascade _, ?_, Table.get?_cascade _, ?_⟩
  · intro k
    rw [Table.mem_cascade_iff]
    constructor
    · rintro ⟨id, hid, hl⟩
      obtain ⟨r, hr, rfl⟩ := List.mem_map.mp hid
      exact ⟨r, hr, hl⟩
    · rintro ⟨r, hr, hl⟩
      exact ⟨r.objectId, List.mem_map_of_mem hr, hl⟩
  · intro rs' hsame
    have hrs' : ∀ r ∈ rs', r.cascade = true := fun r hr => hrs r ((hsame r).mp hr)
    obtain ⟨hids', htable'⟩ := Prod.mk.inj (releaseAll_eq_cascade a hrs')
    rw [hids', htable']
    apply Table.cascade_congr
    simp [hsame]

/-- Two objects that are linked to each other, and a third one linked to one of them: the
ring goes out once, whichever is released first and how often. -/
theorem releaseAll_of_ring :
    let a := ofTable {} (Table.ofHoldings
      [Table.linkedTo "x" ["y", "gone"], Table.linkedTo "y" ["x"], Table.linkedTo "z" ["y", "y"]])
    let rs : List Release := [⟨"z", true⟩, ⟨"x", true⟩]
    let rs' : List Release := [⟨"x", true⟩, ⟨"z", true⟩, ⟨"x", true⟩]
    (∀ r ∈ rs, r.cascade = true) ∧ (∀ r, r ∈ rs' ↔ r ∈ rs) ∧ (a.releaseAll rs).1.Nodup ∧
      "y" ∈ (a.releaseAll rs).1 ∧ (a.releaseAll rs).2.table.get? "y" = none ∧
      (a.releaseAll rs').1.Perm (a.releaseAll rs).1 ∧
      (a.releaseAll rs').2.table = (a.releaseAll rs).2.table := by
  intro a rs rs'
  have hrs : ∀ r ∈ rs, r.cascade = true := by decide
  have hsame : ∀ r, r ∈ rs' ↔ r ∈ rs := by simp [rs, rs', or_comm]
  obtain ⟨hnodup, hmem, hget, horder⟩ := releaseAll_in_any_order a hrs
  have hy : "y" ∈ (a.releaseAll rs).1 := by
    refine (hmem "y").mpr ⟨⟨"x", true⟩, by decide, ?_⟩
    apply Table.Leads.link (h := Table.linkedTo "x" ["y", "gone"]) (k := "y")
    · decide +kernel
    · decide
    apply Table.Leads.self (h := Table.linkedTo "y" ["x"])
    decide +kernel
  refine ⟨hrs, hsame, hnodup, hy, ?_, horder rs' hsame⟩
  rw [hget, if_pos hy]

end Authority

end LeasedLocks
