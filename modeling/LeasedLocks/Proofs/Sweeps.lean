import LeasedLocks.Proofs.Reach
import LeasedLocks.Proofs.Releases

/-!
# Sweeps one after the other

A sweep takes the expired records out by the identifiers that they carry, which are those
that they are filed under, so it takes out exactly these (`Table.Swept`). Several sweeps take
out what expired before the latest of their dates, so an earlier sweep changes nothing in what
is left after a later one, and the two report between them what the later one reports alone
(`Table.sweeps_compose`).
-/

namespace LeasedLocks.Table

/-- Exactly the records whose lease ended before `now` went out of `t`, each reported once, and
`u` is left. -/
structure Swept (t : Table) (now : Millis) (ids : List String) (u : Table) : Prop where
  nodup : ids.Nodup
  mem_iff : ∀ id, id ∈ ids ↔ ∃ h, t.get? id = some h ∧ h.objectId = id ∧ h.autoUnlockAt < now
  get?_eq : ∀ id, u.get? id = if id ∈ ids then none else t.get? id

/-- Sweeps at these dates, one after the other, with what all of them report. -/
def sweepEach (t : Table) : List Millis → List String × Table
  | [] => ([], t)
  | now :: dates =>
    let (ids, t) := t.sweep now
    let (more, t) := t.sweepEach dates
    (ids ++ more, t)

variable {t : Table} {h : Holding} {id : String} {now : Millis} {dates : List Millis}

/-! ## One sweep -/

theorem swept_sweep (t : Table) (now : Millis) : t.Swept now (t.sweep now).1 (t.sweep now).2 where
  nodup := nodup_sweep t now
  mem_iff := by
    intro id
    rw [mem_sweep_iff]
    constructor
    · rintro ⟨h, e, hexp⟩
      exact ⟨h, e, objectId_of_get? e, Holding.isExpired_iff.mp hexp⟩
    · rintro ⟨h, e, -, hlt⟩
      exact ⟨h, e, Holding.isExpired_iff.mpr hlt⟩
  get?_eq := fun id => get?_eraseAll t _ id

/-- A sweep leaves the records whose deadline it does not go beyond. -/
theorem get?_sweep_eq_some_iff :
    (t.sweep now).2.get? id = some h ↔ t.get? id = some h ∧ now ≤ h.autoUnlockAt := by
  rw [get?_sweep, Option.filter_eq_some_iff, Bool.not_eq_true', ← Bool.not_eq_true,
    Holding.isExpired_iff, UInt64.not_lt]

/-! ## Many sweeps -/

theorem get?_sweepEach_eq_some_iff :
    (t.sweepEach dates).2.get? id = some h ↔
      t.get? id = some h ∧ ∀ now ∈ dates, now ≤ h.autoUnlockAt := by
  induction dates generalizing t with
  | nil => simp [sweepEach]
  | cons now dates ih =>
      change ((t.sweep now).2.sweepEach dates).2.get? id = some h ↔ _
      rw [ih, get?_sweep_eq_some_iff, and_assoc, List.forall_mem_cons]

/-- What expires is reported by the first sweep beyond its deadline. -/
theorem mem_sweepEach_iff :
    id ∈ (t.sweepEach dates).1 ↔
      ∃ h, t.get? id = some h ∧ ∃ now ∈ dates, h.autoUnlockAt < now := by
  induction dates generalizing t with
  | nil => simp [sweepEach]
  | cons now dates ih =>
      change id ∈ (t.sweep now).1 ++ ((t.sweep now).2.sweepEach dates).1 ↔ _
      rw [List.mem_append, ih, mem_sweep_iff]
      constructor
      · rintro (⟨h, e, hexp⟩ | ⟨h, e, m, hm, hlt⟩)
        · exact ⟨h, e, now, List.mem_cons_self, Holding.isExpired_iff.mp hexp⟩
        · exact ⟨h, (get?_sweep_eq_some_iff.mp e).1, m, List.mem_cons_of_mem _ hm, hlt⟩
      · rintro ⟨h, e, m, hm, hlt⟩
        by_cases hnow : h.autoUnlockAt < now
        · exact .inl ⟨h, e, Holding.isExpired_iff.mpr hnow⟩
        · have hne : m ≠ now := fun heq => hnow (heq ▸ hlt)
          exact .inr ⟨h, get?_sweep_eq_some_iff.mpr ⟨e, UInt64.not_lt.mp hnow⟩, m,
            (List.mem_cons.mp hm).resolve_left hne, hlt⟩

/-- Nothing is reported by two sweeps. -/
theorem nodup_sweepEach : (t.sweepEach dates).1.Nodup := by
  induction dates generalizing t with
  | nil => exact .nil
  | cons now dates ih =>
      refine List.nodup_append.mpr ⟨nodup_sweep t now, ih, fun x hx y hy heq => ?_⟩
      -- what the first sweep took out is not there for the others
      obtain ⟨g, eg, -⟩ := mem_sweepEach_iff.mp hy
      obtain ⟨h, e, hexp⟩ := mem_sweep_iff.mp hx
      obtain ⟨eg, hle⟩ := get?_sweep_eq_some_iff.mp eg
      rw [← heq, e] at eg
      cases eg
      exact UInt64.not_lt.mpr hle (Holding.isExpired_iff.mp hexp)

/-- Sweeps at earlier dates are lost in one at a later date, which reports what they report
between them. -/
theorem sweepEach_concat (hle : ∀ m ∈ dates, m ≤ now) :
    (t.sweepEach (dates ++ [now])).2 = (t.sweep now).2 ∧
      (t.sweepEach (dates ++ [now])).1.Perm (t.sweep now).1 := by
  have hbefore (k : Millis) : (∃ m ∈ dates ++ [now], k < m) ↔ k < now := by
    constructor
    · rintro ⟨m, hm, hlt⟩
      rcases List.mem_append.mp hm with hm | hm
      · exact UInt64.lt_of_lt_of_le hlt (hle m hm)
      · exact List.mem_singleton.mp hm ▸ hlt
    · exact fun hlt => ⟨now, List.mem_append_right _ List.mem_cons_self, hlt⟩
  constructor
  · apply ext_get?
    intro id
    apply Option.ext
    intro h
    rw [get?_sweepEach_eq_some_iff, get?_sweep_eq_some_iff]
    have hall : (∀ m ∈ dates ++ [now], m ≤ h.autoUnlockAt) ↔ now ≤ h.autoUnlockAt := by
      simpa only [not_exists, not_and, UInt64.not_lt] using not_congr (hbefore h.autoUnlockAt)
    rw [hall]
  · apply (List.perm_ext_iff_of_nodup nodup_sweepEach (nodup_sweep t now)).mpr
    intro id
    simp only [mem_sweepEach_iff, mem_sweep_iff, hbefore, Holding.isExpired_iff]

/-- A sweep takes out exactly what has expired. A sweep and a later one come to the same table
as the later one alone, and report the same objects between them, none of them twice. Every
record outlives all sweeps up to its deadline, the deadline itself included, and so do those
that a grant files, whatever their leases. -/
theorem sweeps_compose (t : Table) :
    (∀ now, t.Swept now (t.sweep now).1 (t.sweep now).2) ∧
      (∀ n₁ n₂, n₁ ≤ n₂ → ((t.sweep n₁).2.sweep n₂).2 = (t.sweep n₂).2 ∧
        ((t.sweep n₁).1 ++ ((t.sweep n₁).2.sweep n₂).1).Nodup ∧
        ((t.sweep n₁).1 ++ ((t.sweep n₁).2.sweep n₂).1).Perm (t.sweep n₂).1) ∧
      (∀ id h, t.get? id = some h → ∀ dates : List Millis, (∀ m ∈ dates, m ≤ h.autoUnlockAt) →
        (t.sweepEach dates).2.get? id = some h) ∧
      ∀ r default now reply u, t.process r default now = .ok (reply, u) →
        reply.isGranted = true → ∀ n : Request, n ∈ r.nodes →
          ∃ h, u.get? n.objectId = some h ∧ h.Records n default now ∧
            ∀ dates : List Millis, (∀ m ∈ dates, m ≤ h.autoUnlockAt) →
              (u.sweepEach dates).2.get? n.objectId = some h := by
  refine ⟨swept_sweep t, fun n₁ n₂ hle => ?_, fun id h e dates hdates => ?_, ?_⟩
  · have hbefore : ∀ m ∈ [n₁], m ≤ n₂ := List.forall_mem_singleton.mpr hle
    obtain ⟨htable, hperm⟩ := sweepEach_concat (t := t) hbefore
    have hpair : t.sweepEach ([n₁] ++ [n₂]) =
        ((t.sweep n₁).1 ++ ((t.sweep n₁).2.sweep n₂).1, ((t.sweep n₁).2.sweep n₂).2) := by
      simp [sweepEach]
    rw [hpair] at htable hperm
    exact ⟨htable, hperm.nodup_iff.mpr (nodup_sweep t n₂), hperm⟩
  · exact get?_sweepEach_eq_some_iff.mpr ⟨e, hdates⟩
  · intro r default now reply u hp hg n hn
    obtain ⟨h, e, hrecords⟩ := ((answered_of_process hp).2.granted hg).records n hn
    exact ⟨h, e, hrecords, fun dates hdates => get?_sweepEach_eq_some_iff.mpr ⟨e, hdates⟩⟩

/-- Two sweeps of three records, and a grant near the last date of the clock: one of its leases
is empty, the other one would end after that date. -/
theorem sweeps_compose_at_last :
    let t := ofHoldings [record 10 0 (Request.of "a"), record 20 0 (Request.of "b"),
      record 30 0 (Request.of "c")]
    let r : Request := .node { objectId := "d", lease := some 0 }
      [.node { objectId := "e", lease := some 100 } []]
    let now : Millis := .last - 10
    (15 : Millis) ≤ 25 ∧ (t.sweep 15).1 = ["a"] ∧ (t.sweep 25).1 = ["a", "b"] ∧
      ((t.sweep 15).2.sweep 25).2 = (t.sweep 25).2 ∧
      ((t.sweep 15).1 ++ ((t.sweep 15).2.sweep 25).1).Perm (t.sweep 25).1 ∧
      ∃ reply u, t.process r 60000 now = .ok (reply, u) ∧ reply.isGranted = true ∧
        (∃ h, u.get? "d" = some h ∧ h.autoUnlockAt = now ∧
          (u.sweepEach [5, now]).2.get? "d" = some h) ∧
        ∃ h, u.get? "e" = some h ∧ h.autoUnlockAt = .last ∧
          (u.sweepEach [.last, now]).2.get? "e" = some h := by
  intro t r now
  have hv : r.validate = .ok () := by
    rw [Request.validate, checkIds_eq_ok_iff]
    decide +kernel
  have hp := t.process_of_valid 60000 now hv
  have hg : (t.grant (r.withDefaultLease 60000) now).1.isGranted = true := by decide +kernel
  have hsweep : (t.sweep 15).1 = ["a"] ∧ (t.sweep 25).1 = ["a", "b"] := by decide +kernel
  obtain ⟨-, hpair, -, hgrant⟩ := sweeps_compose t
  obtain ⟨htable, -, hperm⟩ := hpair 15 25 (by decide)
  have hnodes : r ∈ r.nodes ∧ Tree.node { objectId := "e", lease := some 100 } [] ∈ r.nodes := by
    simp [r, Tree.nodes_node]
  obtain ⟨hd, ed, recordsd, staysd⟩ := hgrant r 60000 now _ _ hp hg _ hnodes.1
  obtain ⟨he, ee, recordse, stayse⟩ := hgrant r 60000 now _ _ hp hg _ hnodes.2
  have hdeadlined : hd.autoUnlockAt = now :=
    UInt64.toNat_inj.mp (recordsd.autoUnlockAt_eq.trans (by decide))
  have hdeadlinee : he.autoUnlockAt = .last :=
    UInt64.toNat_inj.mp (recordse.autoUnlockAt_eq.trans (by decide))
  refine ⟨by decide, hsweep.1, hsweep.2, htable, hperm, _, _, hp, hg,
    ⟨hd, ed, hdeadlined, staysd _ ?_⟩, he, ee, hdeadlinee, stayse _ ?_⟩
  · rw [hdeadlined]
    exact List.forall_mem_cons.mpr ⟨by decide, List.forall_mem_singleton.mpr (UInt64.le_refl _)⟩
  · rw [hdeadlinee]
    exact List.forall_mem_cons.mpr ⟨UInt64.le_refl _, List.forall_mem_singleton.mpr (by decide)⟩

end LeasedLocks.Table
