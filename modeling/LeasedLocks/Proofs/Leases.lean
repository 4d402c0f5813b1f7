import LeasedLocks.Proofs.History

/-!
# A lease excludes all others

What is granted stays locked, unchanged, until it is released, everything is
cleared, or somebody looks at the table at a date beyond its deadline. Dates may
come in any order.

## Implementation notes

A grant is recognised by the record that the table then holds, not by the
request alone: this is what later deeds have to leave in place.
-/

namespace LeasedLocks.Authority

variable {a b : Authority} {d : Deed} {h g : Holding} {r : Request} {now : Millis}

/-- The deed grants a request, and `h` is the record filed for one of its objects. -/
def Grants (a : Authority) (d : Deed) (h : Holding) : Prop :=
  ∃ r now reply b, d = .request r now ∧ a.request r now = .ok (reply, b) ∧
    reply.isGranted = true ∧ h.objectId ∈ r.objectIds ∧
    b.table.get? h.objectId = some h

/-- The deed ends the lease `h`: it releases the object itself or something that
links lead from, clears everything, or looks at the table after the deadline. -/
def Ends (a : Authority) (h : Holding) : Deed → Prop
  | .request r now => r.validate = .ok () ∧ h.autoUnlockAt < now
  | .release id cascade =>
      id = h.objectId ∨ (cascade = true ∧ a.table.Leads id h.objectId)
  | .clear => True
  | .sweep now => h.autoUnlockAt < now

/-- None of these deeds ends the lease, each looked at where those before it
have left the authority. -/
def Lasts (a : Authority) (h : Holding) : List Deed → Prop
  | [] => True
  | d :: ds => ¬ a.Ends h d ∧ (a.enact d).Lasts h ds

/-! ## One deed -/

theorem get?_sweep_iff (e : a.table.get? h.objectId = some h) :
    (a.sweep now).2.table.get? h.objectId = some h ↔ ¬ h.autoUnlockAt < now := by
  change (a.table.sweep now).2.get? h.objectId = some h ↔ _
  rw [Table.get?_sweep, e, ← Holding.isExpired_iff]
  cases hexp : h.isExpired now <;> simp [hexp]

theorem get?_release_iff {id : String} {cascade : Bool}
    (e : a.table.get? h.objectId = some h) :
    (a.release id cascade).2.table.get? h.objectId = some h ↔
      ¬ (id = h.objectId ∨ (cascade = true ∧ a.table.Leads id h.objectId)) := by
  change (a.table.release id cascade).2.get? h.objectId = some h ↔ _
  rw [← Table.mem_release_iff cascade e, Table.get?_release, e]
  split <;> simp_all

/-- What a sweep takes out is not filed anew with a deadline that is over. -/
theorem get?_request_iff {reply : Reply} (hr : a.request r now = .ok (reply, b))
    (e : a.table.get? h.objectId = some h) :
    b.table.get? h.objectId = some h ↔ ¬ h.autoUnlockAt < now := by
  have hb := (responded_of_request hr).answered
  constructor
  · intro eb
    cases es : (a.sweep now).2.table.get? h.objectId with
    | none => exact hb.not_expired_of_new es eb
    | some k =>
        have hk : k = h := Option.some.inj ((hb.get?_of_get? es).symm.trans eb)
        exact (get?_sweep_iff e).mp (hk ▸ es)
  · intro hlive
    exact hb.get?_of_get? ((get?_sweep_iff e).mpr hlive)

/-- A lease is over after exactly the deeds that end it. -/
theorem get?_enact_iff (e : a.table.get? h.objectId = some h) :
    (a.enact d).table.get? h.objectId = some h ↔ ¬ a.Ends h d := by
  cases d with
  | release id cascade => exact get?_release_iff e
  | sweep now => exact get?_sweep_iff e
  | clear =>
      simp [enact, clear, removed, Table.clear, Ends]
  | request r now =>
      cases hv : r.validate with
      | error f =>
          rw [enact_request_of_invalid a now hv]
          simp [Ends, hv, e]
      | ok u =>
          have hr := request_of_valid a now hv
          rw [enact_request_of_ok hr, get?_request_iff hr e]
          simp [Ends, hv]

/-- A lease outlives deeds of which none ends it. -/
theorem get?_enactAll_of_lasts {ds : List Deed} (e : a.table.get? h.objectId = some h)
    (hl : a.Lasts h ds) : (a.enactAll ds).table.get? h.objectId = some h := by
  induction ds generalizing a with
  | nil => exact e
  | cons d ds ih => exact ih ((get?_enact_iff e).mpr hl.1) hl.2

/-! ## Whole histories -/

/-- The batches announced since the authority was `a`. -/
def announcedSince (b a : Authority) : List (List String) :=
  b.bulletin.freed.log.toList.drop a.bulletin.freed.sent

theorem Announces.exists_batch (hab : Announces a b) {id : String}
    (ea : a.table.get? id = some h) (eb : b.table.get? id = none) :
    ∃ batch ∈ b.announcedSince a, id ∈ batch := by
  obtain ⟨batches, hlog, hnamed⟩ := hab.batches
  obtain ⟨batch, hb, hid⟩ := hnamed id h ea eb
  refine ⟨batch, ?_, hid⟩
  rw [announcedSince, hlog, Channel.sent, ← Array.length_toList, List.drop_left]
  exact hb

/-- The record of a grant is in the table afterwards. -/
theorem get?_enact_of_grants (hg : a.Grants d h) :
    (a.enact d).table.get? h.objectId = some h := by
  obtain ⟨r, now, reply, b, rfl, hr, -, -, e⟩ := hg
  rw [enact_request_of_ok hr]
  exact e

/-- What is granted was free once the expired locks were taken away. -/
theorem free_of_grants (hg : a.Grants d h) :
    ∃ r now, d = .request r now ∧ (a.sweep now).2.table.get? h.objectId = none := by
  obtain ⟨r, now, reply, b, rfl, hr, hgranted, hid, -⟩ := hg
  have hb := (responded_of_request hr).answered
  exact ⟨r, now, rfl, hb.free_of_granted hgranted _ hid⟩

/-- Through all errands, in any order and with dates in any order: what a deed
`d` grants stays as it is until a deed ends the lease, and is over then; no
request replaces a record that has not expired at its date; and before the same
object is granted once more, it is announced as freed. -/
theorem lease_excludes_others (a : Authority) (es : List Errand) :
    a.carryOutAll es = a.enactAll (es.flatMap Errand.deeds) ∧
    (∀ pre d mid rest h, es.flatMap Errand.deeds = pre ++ d :: (mid ++ rest) →
      (a.enactAll pre).Grants d h → (a.enactAll (pre ++ [d])).Lasts h mid →
        (a.enactAll (pre ++ d :: mid)).table.get? h.objectId = some h ∧
          ∀ e rest', rest = e :: rest' →
            ((a.enactAll (pre ++ d :: (mid ++ [e]))).table.get? h.objectId = some h ↔
              ¬ (a.enactAll (pre ++ d :: mid)).Ends h e)) ∧
    (∀ pre r now rest h, es.flatMap Errand.deeds = pre ++ .request r now :: rest →
      (a.enactAll pre).table.get? h.objectId = some h → h.isExpired now = false →
        (a.enactAll (pre ++ [.request r now])).table.get? h.objectId = some h) ∧
    (∀ pre d mid e rest h g, es.flatMap Errand.deeds = pre ++ d :: (mid ++ e :: rest) →
      (a.enactAll pre).Grants d h → (a.enactAll (pre ++ d :: mid)).Grants e g →
      g.objectId = h.objectId →
        ∃ r now, e = .request r now ∧
          ∃ batch ∈ ((a.enactAll (pre ++ d :: mid)).sweep now).2.announcedSince
              (a.enactAll (pre ++ [d])),
            h.objectId ∈ batch) := by
  refine ⟨carryOutAll_eq_enactAll a es, ?_, ?_, ?_⟩
  · intro pre d mid rest h _ hg hl
    rw [enactAll_append, enactAll_cons, enactAll_nil] at hl
    have hstay := get?_enactAll_of_lasts (get?_enact_of_grants hg) hl
    rw [enactAll_append, enactAll_cons]
    refine ⟨hstay, ?_⟩
    intro e rest' _
    rw [enactAll_append, enactAll_cons, enactAll_append]
    exact get?_enact_iff hstay
  · intro pre r now rest h _ e hlive
    rw [enactAll_append, enactAll_cons, enactAll_nil]
    apply (get?_enact_iff e).mpr
    rintro ⟨-, hover⟩
    rw [Holding.isExpired_iff.mpr hover] at hlive
    cases hlive
  · intro pre d mid e rest h g _ hd he hid
    obtain ⟨r, now, rfl, hfree⟩ := free_of_grants he
    refine ⟨r, now, rfl, ?_⟩
    rw [enactAll_append, enactAll_cons] at hfree ⊢
    rw [hid] at hfree
    have hpath := (Announces.enactAll ((a.enactAll pre).enact d) mid).trans (.sweep _ now)
    rw [enactAll_append]
    exact hpath.exists_batch (get?_enact_of_grants hd) hfree

/-- An object leased for ten milliseconds is asked for twice in vain, the second
time at an earlier date, swept away at the first date beyond its deadline and
granted once more. -/
theorem leased_again_after_sweep :
    let r : Request := .node { objectId := "order", lease := some 10 } []
    let a := Authority.ofTable {} ∅
    let first := Deed.request r 100
    let mid := [Deed.request r 110, .request r 50, .sweep 111]
    let again := Deed.request r 60
    a.Grants first (Table.record 0 100 r) ∧
      (a.enactAll (first :: mid)).Grants again (Table.record 0 60 r) ∧
      (a.enactAll [first]).Lasts (Table.record 0 100 r) (mid.take 2) ∧
      (a.enactAll [first, .request r 110, .request r 50]).table.get? "order" =
        some (Table.record 0 100 r) ∧
      ∃ batch ∈ ((a.enactAll (first :: mid)).sweep 60).2.announcedSince (a.enactAll [first]),
        "order" ∈ batch := by
  intro r a first mid again
  have hv : r.validate = .ok () := by
    rw [Request.validate, checkIds_eq_ok_iff]
    decide +kernel
  have hfirst : a.Grants first (Table.record 0 100 r) :=
    ⟨r, 100, _, _, rfl, request_of_valid a 100 hv, by decide +kernel, by decide +kernel,
      by decide +kernel⟩
  have hagain : (a.enactAll (first :: mid)).Grants again (Table.record 0 60 r) :=
    ⟨r, 60, _, _, rfl, request_of_valid _ 60 hv, by decide +kernel, by decide +kernel,
      by decide +kernel⟩
  have hlasts : (a.enactAll [first]).Lasts (Table.record 0 100 r) (mid.take 2) := by
    refine ⟨?_, ?_, trivial⟩
    · rintro ⟨-, hlt⟩
      exact absurd hlt (by decide +kernel)
    · rintro ⟨-, hlt⟩
      exact absurd hlt (by decide +kernel)
  have hmain := lease_excludes_others a
    [.request r 100, .request r 110, .request r 50, .sweep 111, .request r 60]
  obtain ⟨-, hstay, -, hbatch⟩ := hmain
  refine ⟨hfirst, hagain, hlasts, ?_, ?_⟩
  · exact (hstay [] first (mid.take 2) [.sweep 111, again] _ rfl hfirst hlasts).1
  · obtain ⟨r', now, heq, hb⟩ := hbatch [] first mid again [] _ _ rfl hfirst hagain rfl
    injection heq with hr hnow
    subst hr hnow
    exact hb

end LeasedLocks.Authority
