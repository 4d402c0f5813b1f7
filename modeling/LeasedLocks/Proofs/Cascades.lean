import LeasedLocks.Proofs.Leases
import Mathlib.Logic.ExistsUnique

/-!
# What a cascade takes along

A record names the objects that were locked as directly linked to it, and a cascade
goes by these names. It takes out the tree of one grant as long as none of the
objects of that tree was given back on its own and granted to somebody else: then
the name leads to the new record, and from there to whatever that one is linked to.

## Implementation notes

Records do not say which request filed them. `Authority.FiledAt` reads it off the
history: a record belongs to the deed that granted it if no deed since has ended its
lease, and there is exactly one such deed for every record.
-/

namespace LeasedLocks.Authority

/-- The record was filed by the grant at place `n` of the history, and none of the
deeds after it ended its lease. -/
def FiledAt (a : Authority) (ds : List Deed) (n : Nat) (h : Holding) : Prop :=
  ∃ d, ds[n]? = some d ∧ (a.enactAll (ds.take n)).Grants d h ∧
    (a.enactAll (ds.take (n + 1))).Lasts h (ds.drop (n + 1))

/-- An object of the tree granted at place `n` is by now locked by the later grant at
place `m`. -/
def Regranted (a : Authority) (ds : List Deed) (n m : Nat) (id : String) : Prop :=
  n < m ∧ (∃ r now, ds[n]? = some (.request r now) ∧ id ∈ r.objectIds) ∧
    ∃ g : Holding, g.objectId = id ∧ a.FiledAt ds m g

variable {a : Authority} {d : Deed} {ds : List Deed} {h g : Holding} {n m : Nat}
  {id i k : String} {now : Millis}

/-! ## Where records come from -/

theorem get?_of_get?_sweep (e : (a.sweep now).2.table.get? id = some h) :
    a.table.get? id = some h := by
  change (a.table.sweep now).2.get? id = some h at e
  rw [Table.get?_sweep] at e
  exact Option.eq_some_of_filter_eq_some e

/-- A record that was not there before a deed was granted by it. -/
theorem grants_of_new (e : a.table.get? h.objectId ≠ some h)
    (e' : (a.enact d).table.get? h.objectId = some h) : a.Grants d h := by
  cases d with
  | release id cascade =>
      change (a.table.release id cascade).2.get? h.objectId = some h at e'
      rw [Table.get?_release] at e'
      split at e'
      · cases e'
      · exact absurd e' e
  | clear => simp [enact, clear, removed, Table.clear] at e'
  | sweep now => exact absurd (get?_of_get?_sweep e') e
  | request r now =>
      cases hv : r.validate with
      | error f =>
          rw [enact_request_of_invalid a now hv] at e'
          exact absurd e' e
      | ok u =>
          have hr := request_of_valid a now hv
          rw [enact_request_of_ok hr] at e'
          have hb := (responded_of_request hr).answered
          cases hg : Reply.isGranted _ with
          | false =>
              rw [(hb.refused hg).unchanged] at e'
              exact absurd (get?_of_get?_sweep e') e
          | true =>
              by_cases hid : h.objectId ∈ r.objectIds
              · exact ⟨r, now, _, _, rfl, hr, hg, hid, e'⟩
              · rw [(hb.granted hg).others _ hid] at e'
                exact absurd (get?_of_get?_sweep e') e

/-- A record in the table was there from the beginning, or a deed filed it. -/
theorem lasts_or_filedAt (e : (a.enactAll ds).table.get? h.objectId = some h) :
    (a.table.get? h.objectId = some h ∧ a.Lasts h ds) ∨ ∃ n, a.FiledAt ds n h := by
  induction ds generalizing a with
  | nil => exact .inl ⟨e, trivial⟩
  | cons d ds ih =>
      rcases ih e with ⟨e', hl⟩ | ⟨n, c, hc, hg, hl⟩
      · by_cases ea : a.table.get? h.objectId = some h
        · exact .inl ⟨ea, (get?_enact_iff ea).mp e', hl⟩
        · exact .inr ⟨0, d, rfl, grants_of_new ea e', hl⟩
      · exact .inr ⟨n + 1, c, hc, hg, hl⟩

/-! ## Records and their grants -/

/-- Whatever lasts is there before each deed and not ended by it. -/
theorem Lasts.not_ends (hl : a.Lasts h ds) (e : a.table.get? h.objectId = some h)
    (hd : ds[n]? = some d) : (a.enactAll (ds.take n)).table.get? h.objectId = some h ∧
      ¬ (a.enactAll (ds.take n)).Ends h d := by
  induction ds generalizing a n with
  | nil => simp at hd
  | cons c ds ih =>
      cases n with
      | zero =>
          cases hd
          exact ⟨e, hl.1⟩
      | succ n => exact ih hl.2 ((get?_enact_iff e).mpr hl.1) hd

theorem FiledAt.get?_filed (hf : a.FiledAt ds n h) :
    (a.enactAll (ds.take (n + 1))).table.get? h.objectId = some h := by
  obtain ⟨d, hd, hg, -⟩ := hf
  rw [List.take_add_one, hd, enactAll_append]
  exact get?_enact_of_grants hg

theorem FiledAt.get?_eq (hf : a.FiledAt ds n h) :
    (a.enactAll ds).table.get? h.objectId = some h := by
  obtain ⟨d, hd, hg, hl⟩ := id hf
  rw [← List.take_append_drop (n + 1) ds, enactAll_append]
  exact get?_enactAll_of_lasts hf.get?_filed hl

/-- No later deed grants an object of which the record is still there. -/
theorem FiledAt.ne_of_grants (hf : a.FiledAt ds n h) (hnm : n < m) (hd : ds[m]? = some d)
    (hg : (a.enactAll (ds.take m)).Grants d g) : g.objectId ≠ h.objectId := by
  intro heq
  obtain ⟨j, rfl⟩ := Nat.exists_eq_add_of_lt hnm
  obtain ⟨-, -, -, hl⟩ := id hf
  have hj : (ds.drop (n + 1))[j]? = some d := by
    rw [List.getElem?_drop, ← hd]
    congr 1
    omega
  obtain ⟨e, hends⟩ := hl.not_ends hf.get?_filed hj
  rw [← enactAll_append, ← List.take_add, Nat.add_right_comm] at e hends
  obtain ⟨r, now, rfl, hfree⟩ := free_of_grants hg
  obtain ⟨r', now', _, _, hrr, hr, -⟩ := hg
  cases hrr
  -- the request looked at a table in which the older record was still valid
  have hlive : ¬ h.autoUnlockAt < now := fun hlt => hends ⟨validate_of_request hr, hlt⟩
  rw [heq, (get?_sweep_iff e).mpr hlive] at hfree
  cases hfree

/-- There is one record for each object, and it was filed once. -/
theorem FiledAt.unique (hf : a.FiledAt ds n h) (hg : a.FiledAt ds m g)
    (heq : g.objectId = h.objectId) : n = m ∧ h = g := by
  have hgh : h = g := by
    have e := hg.get?_eq
    rw [heq, hf.get?_eq] at e
    exact Option.some.inj e
  obtain ⟨c, hc, hcg, -⟩ := id hf
  obtain ⟨d, hd, hdg, -⟩ := id hg
  rcases Nat.lt_trichotomy n m with hlt | rfl | hlt
  · exact absurd heq (hf.ne_of_grants hlt hd hdg)
  · exact ⟨rfl, hgh⟩
  · exact absurd heq.symm (hg.ne_of_grants hlt hc hcg)

/-- From an empty table, every record was filed by exactly one deed. -/
theorem exists_unique_filedAt (ha : a.table = ∅)
    (e : (a.enactAll ds).table.get? h.objectId = some h) : ∃! n, a.FiledAt ds n h := by
  rcases lasts_or_filedAt e with ⟨e', -⟩ | ⟨n, hf⟩
  · rw [ha, Table.get?_empty] at e'
    cases e'
  · exact ⟨n, hf, fun m hm => (hm.unique hf rfl).1⟩

/-! ## Links -/

/-- What a record is linked to was granted together with it. -/
theorem Grants.of_linked (hg : a.Grants d h) (hk : k ∈ h.linkedIds) :
    ∃ r now, d = .request r now ∧ k ∈ r.objectIds ∧ ∃ g, g.objectId = k ∧ a.Grants d g := by
  obtain ⟨r, now, reply, b, rfl, hr, hgranted, hid, e⟩ := hg
  have hb := (responded_of_request hr).answered.granted hgranted
  obtain ⟨x, hx, hxid⟩ := Request.mem_objectIds_iff.mp hid
  obtain ⟨f, ef, hrec⟩ := hb.records x hx
  rw [hxid, e] at ef
  cases ef
  rw [hrec.linkedIds_eq] at hk
  obtain ⟨y, hy, rfl⟩ := List.mem_map.mp hk
  have hyr : y ∈ r.nodes := Tree.mem_walk_of_linked hx hy
  have hmem : y.objectId ∈ r.objectIds := Request.mem_objectIds_iff.mpr ⟨y, hyr, rfl⟩
  obtain ⟨g, eg, -⟩ := hb.records y hyr
  have hgid := Table.objectId_of_get? eg
  refine ⟨r, now, rfl, hmem, g, hgid, r, now, reply, b, rfl, hr, hgranted, ?_, ?_⟩
  · rw [hgid]
    exact hmem
  · rw [hgid]
    exact eg

/-- A link leads to the same grant or to a later one, which then took an object of
that tree anew. -/
theorem FiledAt.of_linked (hf : a.FiledAt ds n h) (hk : g.objectId ∈ h.linkedIds)
    (hg : a.FiledAt ds m g) : n = m ∨ a.Regranted ds n m g.objectId := by
  obtain ⟨d, hd, hgrants, -⟩ := hf
  obtain ⟨r, now, rfl, hmem, f, hfid, hfg⟩ := hgrants.of_linked hk
  rcases Nat.lt_trichotomy n m with hlt | rfl | hlt
  · exact .inr ⟨hlt, ⟨r, now, hd, hmem⟩, g, rfl, hg⟩
  · exact .inl rfl
  · exact absurd hfid (hg.ne_of_grants hlt hd hfg)

/-- Wherever links lead to from a record, the record there was filed by the same
grant, or there is an object of that grant's tree on the way that was granted anew,
not later than the record. -/
theorem FiledAt.of_leads (ha : a.table = ∅) (hl : (a.enactAll ds).table.Leads i k)
    (hf : a.FiledAt ds n h) (hi : h.objectId = i) (hg : a.FiledAt ds m g)
    (hk : g.objectId = k) :
    n = m ∨ ∃ j ≤ m, ∃ id, (a.enactAll ds).table.Leads i id ∧ a.Regranted ds n j id := by
  induction hl generalizing n h with
  | self e => exact .inl (hf.unique hg (hk.trans hi.symm)).1
  | @link i k' k f e hmem hl ih =>
      have hfh : f = h := by
        have := hf.get?_eq
        rw [hi, e] at this
        exact Option.some.inj this
      subst hfh
      obtain ⟨f', ef'⟩ : ∃ f', (a.enactAll ds).table.get? k' = some f' := by
        cases hl with
        | self e' => exact ⟨_, e'⟩
        | link e' _ _ => exact ⟨_, e'⟩
      have hid' := Table.objectId_of_get? ef'
      obtain ⟨n', hf', -⟩ := exists_unique_filedAt ha (hid'.symm ▸ ef')
      have hle : n' ≤ m := by
        rcases ih hf' hid' hk with rfl | ⟨j, hj, id, -, hre⟩
        · exact Nat.le_refl _
        · exact Nat.le_trans (Nat.le_of_lt hre.1) hj
      rcases hf.of_linked (hid'.symm ▸ hmem) hf' with rfl | hre
      · rcases ih hf' hid' hk with heq | ⟨j, hj, id, hlead, hre⟩
        · exact .inl heq
        · exact .inr ⟨j, hj, id, .link e hmem hlead, hre⟩
      · exact .inr ⟨n', hle, k', .link e hmem (.self ef'), hid' ▸ hre⟩

/-- After any errands, every record that a cascade takes out was filed by the same
grant as the record it started from, or later than an object of that grant's tree
that the cascade takes out too: this object had left the table and was granted anew.
Every record was filed by exactly one grant. -/
theorem cascade_of_grant (settings : AuthoritySettings) (es : List Errand) {h : Holding}
    {n : Nat} (hf : (ofTable settings ∅).FiledAt (es.flatMap Errand.deeds) n h) :
    let a := ofTable settings ∅
    let ds := es.flatMap Errand.deeds
    let b := a.carryOutAll es
    (∀ g : Holding, b.table.get? g.objectId = some g → ∃! m, a.FiledAt ds m g) ∧
    ∀ k ∈ (b.release h.objectId true).1, ∃ g m, g.objectId = k ∧ a.FiledAt ds m g ∧
      (n = m ∨ ∃ j ≤ m, ∃ id ∈ (b.release h.objectId true).1, a.Regranted ds n j id) := by
  intro a ds b
  have hb : b = a.enactAll ds := carryOutAll_eq_enactAll a es
  have hmem {k : String} : k ∈ (b.release h.objectId true).1 ↔ b.table.Leads h.objectId k := by
    change k ∈ (b.table.cascade [h.objectId]).1 ↔ _
    rw [Table.mem_cascade_iff]
    simp
  simp only [hmem]
  rw [hb]
  refine ⟨fun g e => exists_unique_filedAt rfl e, ?_⟩
  intro k hk
  obtain ⟨g, eg⟩ := hk.exists_get?
  have hid := Table.objectId_of_get? eg
  obtain ⟨m, hg, -⟩ := exists_unique_filedAt (h := g) rfl (hid.symm ▸ eg)
  refine ⟨g, m, hid, hg, ?_⟩
  rcases FiledAt.of_leads rfl hk hf rfl hg hid with heq | ⟨j, hj, id, hlead, hre⟩
  · exact .inl heq
  · exact .inr ⟨j, hj, id, hlead, hre⟩

/-! ## A tree that was taken apart -/

/-- A report is locked together with its draft. The draft is given back, and somebody
else locks it together with a figure. -/
def takenApart : List Errand :=
  [.request ((Request.of "report").linking (Request.of "draft")) 0,
    .release "draft" false,
    .request (((Request.of "draft").requestedBy "other").linking (Request.of "figure")) 0]

/-- The record that is filed at the beginning for an object with these links. -/
def recordOf (id : String) (linkedIds : List String) : Holding :=
  { Table.record (ofTable {} ∅).defaultLease 0 (Request.of id) with linkedIds }

theorem filedAt_report : (ofTable {} ∅).FiledAt (takenApart.flatMap Errand.deeds) 0
    (recordOf "report" ["draft"]) := by
  have hv : Request.validate ((Request.of "report").linking (Request.of "draft")) = .ok () := by
    rw [Request.validate, checkIds_eq_ok_iff]
    decide +kernel
  refine ⟨_, rfl, ⟨_, 0, _, _, rfl, request_of_valid _ 0 hv, ?_, ?_, ?_⟩, ?_, ?_, trivial⟩
  · decide +kernel
  · decide +kernel
  · decide +kernel
  · rintro (hid | ⟨hcascade, -⟩)
    · exact absurd hid (by decide +kernel)
    · cases hcascade
  · rintro ⟨-, hlt⟩
    exact absurd hlt (by decide +kernel)

theorem filedAt_figure : (ofTable {} ∅).FiledAt (takenApart.flatMap Errand.deeds) 2
    (recordOf "figure" []) := by
  have hv : Request.validate
      (((Request.of "draft").requestedBy "other").linking (Request.of "figure")) = .ok () := by
    rw [Request.validate, checkIds_eq_ok_iff]
    decide +kernel
  refine ⟨_, rfl, ⟨_, 0, _, _, rfl, request_of_valid _ 0 hv, ?_, ?_, ?_⟩, trivial⟩
  · decide +kernel
  · decide +kernel
  · decide +kernel

/-- Links lead from the report through the draft, which somebody else holds, to the
figure. -/
theorem figure_mem_cascade :
    "figure" ∈ (((ofTable {} ∅).carryOutAll takenApart).release "report" true).1 := by
  change "figure" ∈ (Table.cascade _ ["report"]).1
  rw [Table.mem_cascade_iff]
  refine ⟨"report", List.mem_cons_self, ?_⟩
  apply Table.Leads.link (h := recordOf "report" ["draft"]) (k := "draft")
  · decide +kernel
  · decide +kernel
  apply Table.Leads.link (k := "figure")
    (h := { recordOf "draft" ["figure"] with holder := "other" })
  · decide +kernel
  · decide +kernel
  apply Table.Leads.self (h := recordOf "figure" [])
  decide +kernel

/-- With the report the cascade takes out an object that was never locked together
with it. -/
theorem cascade_leaves_grant :
    ¬ ∀ (settings : AuthoritySettings) (es : List Errand) (h g : Holding) (n m : Nat),
      (ofTable settings ∅).FiledAt (es.flatMap Errand.deeds) n h →
      (ofTable settings ∅).FiledAt (es.flatMap Errand.deeds) m g →
      g.objectId ∈ (((ofTable settings ∅).carryOutAll es).release h.objectId true).1 →
        m = n := by
  intro hall
  have heq := hall {} takenApart _ _ 0 2 filedAt_report filedAt_figure figure_mem_cascade
  cases heq

/-- The figure is taken out because the draft was granted anew. -/
theorem cascade_of_report :
    let a := ofTable {} ∅
    let ds := takenApart.flatMap Errand.deeds
    let b := a.carryOutAll takenApart
    a.FiledAt ds 0 (recordOf "report" ["draft"]) ∧
      ∃ j ≤ 2, ∃ id ∈ (b.release "report" true).1, a.Regranted ds 0 j id := by
  intro a ds b
  refine ⟨filedAt_report, ?_⟩
  obtain ⟨-, hcascade⟩ := cascade_of_grant {} takenApart filedAt_report
  obtain ⟨g, m, hid, hg, hm⟩ := hcascade "figure" figure_mem_cascade
  obtain ⟨rfl, -⟩ := filedAt_figure.unique hg hid
  rcases hm with heq | hre
  · cases heq
  · exact hre

end LeasedLocks.Authority
