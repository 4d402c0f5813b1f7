import LeasedLocks.Proofs.History

/-!
# Leases and durations

The length of a lease is stated as a duration, either in the request or as the default of
the authority, and counted in milliseconds on the lease clock. The deadline stops at the last
date of the clock, but the length of the lease does not: it is counted modulo the size of the
clock (`Authority.LeaseDeadlines`). A longer lease therefore ends no sooner as long as its length
can be shown by the clock, and may end at once if it cannot.
-/

namespace LeasedLocks

/-- The end of a lease that begins at `now` and lasts so many milliseconds, as far as the clock
can show it. -/
def leaseEnd (now : Millis) (millis : Nat) : Nat := min (UInt64.size - 1) (now.toNat + millis)

namespace Authority

/-- The request `r` is granted at `now`, and `h` is the record of its node `n`, whose deadline
the reply reports. -/
def GrantsLease (a : Authority) (r : Request) (now : Millis) (n : Request) (h : Holding) : Prop :=
  ∃ reply b, a.request r now = .ok (reply, b) ∧ reply.isGranted = true ∧
    b.table.get? n.objectId = some h ∧
    ∀ y : Reply, (n, y) ∈ r.nodes.zip reply.nodes → y.label.autoUnlockAt = some h.autoUnlockAt

/-- The authority with another default lease. -/
def defaultingTo (a : Authority) (d : Duration) : Authority :=
  { a with settings := { a.settings with defaultLease := d } }

/-- How the deadlines of a tree depend on the lengths that are stated for its leases. -/
structure LeaseDeadlines (a : Authority) (r : Request) (now : Millis) : Prop where
  /-- A node that was built with a lease has that lease. -/
  stated : ∀ d, ∀ n : Request, n ∈ r.nodes → n.label.lease = some (.ofDuration d) →
    ∃ h, a.GrantsLease r now n h ∧ h.autoUnlockAt.toNat = leaseEnd now (d.millis % UInt64.size)
  /-- The tree is granted with any lease of its root. -/
  asked : ∀ d, ∃ h, a.GrantsLease (r.leasedFor d) now (r.leasedFor d) h ∧
    h.autoUnlockAt.toNat = leaseEnd now (d.millis % UInt64.size)
  /-- It is granted with any default, which counts for the nodes that state no lease. -/
  unasked : ∀ d, ∀ n : Request, n ∈ r.nodes → n.label.lease = none →
    ∃ h, (a.defaultingTo d).GrantsLease r now n h ∧
      h.autoUnlockAt.toNat = leaseEnd now (d.millis % UInt64.size)
  /-- As far as the clock can show the length, a lease lasts as long as stated, and ends no
  sooner than a shorter one. -/
  longer : ∀ {d d' : Duration} {h h' : Holding}, d.nanos ≤ d'.nanos → d'.millis < UInt64.size →
    (a.GrantsLease (r.leasedFor d) now (r.leasedFor d) h ∧
        a.GrantsLease (r.leasedFor d') now (r.leasedFor d') h' ∨
      ∃ n : Request, n ∈ r.nodes ∧ n.label.lease = none ∧
        (a.defaultingTo d).GrantsLease r now n h ∧ (a.defaultingTo d').GrantsLease r now n h') →
    h.autoUnlockAt ≤ h'.autoUnlockAt ∧ h.autoUnlockAt.toNat = leaseEnd now d.millis ∧
      h'.autoUnlockAt.toNat = leaseEnd now d'.millis

end Authority

variable {a b : Authority} {r n : Request} {now : Millis} {d d' : Duration} {h h' : Holding}
  {reply : Reply}

/-! ## Lengths of leases -/

@[simp] theorem Millis.toNat_ofDuration (d : Duration) :
    (Millis.ofDuration d).toNat = d.millis % UInt64.size := UInt64.toNat_ofNat'

theorem Duration.millis_le (h : d.nanos ≤ d'.nanos) : d.millis ≤ d'.millis :=
  Nat.div_le_div_right h

theorem leaseEnd_le {m m' : Nat} (h : m ≤ m') (now : Millis) :
    leaseEnd now m ≤ leaseEnd now m' := by
  unfold leaseEnd
  omega

namespace Request

@[simp] theorem objectIds_leasedFor (r : Request) (d : Duration) :
    (r.leasedFor d).objectIds = r.objectIds := by
  cases r
  simp [leasedFor, alter, objectIds, Tree.labels, Tree.nodes_node]

@[simp] theorem validate_leasedFor (r : Request) (d : Duration) :
    (r.leasedFor d).validate = r.validate := by
  rw [validate, validate, objectIds_leasedFor]

end Request

namespace Authority

/-! ## One grant -/

theorem exists_grantsLease_of_free (hv : r.validate = .ok ()) (hfree : (a.sweep now).2.table.Free r)
    (hn : n ∈ r.nodes) : ∃ h, a.GrantsLease r now n h ∧ h.Records n a.defaultLease now := by
  have hr := request_of_valid a now hv
  have hgranted : ((a.sweep now).2.table.grant
      (r.withDefaultLease a.defaultLease) now).1.isGranted = true := by
    rw [Table.grant_of_free hfree, Table.isGranted_map_verdict]
  have hg := (responded_of_request hr).answered.granted hgranted
  obtain ⟨h, hget, hrecords⟩ := hg.records n hn
  refine ⟨h, ⟨_, _, hr, hgranted, hget, fun y hy => ?_⟩, hrecords⟩
  obtain ⟨-, g, hget', hdeadline⟩ := hg.reports n y hy
  cases hget.symm.trans hget'
  exact hdeadline

/-- A tree is granted with one record for each of its nodes. -/
theorem GrantsLease.eq (hl : a.GrantsLease r now n h) (hl' : a.GrantsLease r now n h') :
    h = h' := by
  obtain ⟨reply, b, hr, -, hget, -⟩ := hl
  obtain ⟨reply', b', hr', -, hget', -⟩ := hl'
  cases hr.symm.trans hr'
  exact Option.some.inj (hget.symm.trans hget')

theorem free_of_request (hr : a.request r now = .ok (reply, b)) (hg : reply.isGranted = true) :
    (a.sweep now).2.table.Free r :=
  (responded_of_request hr).answered.free_of_granted hg

theorem exists_grantsLease_of_lease (hv : r.validate = .ok ())
    (hfree : (a.sweep now).2.table.Free r) (hn : n ∈ r.nodes)
    (hlease : n.label.lease = some (.ofDuration d)) :
    ∃ h, a.GrantsLease r now n h ∧
      h.autoUnlockAt.toNat = leaseEnd now (d.millis % UInt64.size) := by
  obtain ⟨h, hl, hrecords⟩ := exists_grantsLease_of_free hv hfree hn
  refine ⟨h, hl, ?_⟩
  rw [hrecords.autoUnlockAt_eq, hlease, leaseEnd, ← Millis.toNat_ofDuration]
  rfl

/-- Whatever lease its root is to have, a tree is granted if its objects are free. -/
theorem exists_grantsLease_leasedFor (hv : r.validate = .ok ())
    (hfree : (a.sweep now).2.table.Free r) (d : Duration) :
    ∃ h, a.GrantsLease (r.leasedFor d) now (r.leasedFor d) h ∧
      h.autoUnlockAt.toNat = leaseEnd now (d.millis % UInt64.size) := by
  have hfree' : (a.sweep now).2.table.Free (r.leasedFor d) := by
    intro id hid
    rw [Request.objectIds_leasedFor] at hid
    exact hfree id hid
  exact exists_grantsLease_of_lease ((Request.validate_leasedFor r d).trans hv) hfree'
    (Tree.mem_nodes_self (r.leasedFor d)) rfl

/-- The same holds of the default lease of the authority. -/
theorem exists_grantsLease_defaultingTo (hv : r.validate = .ok ())
    (hfree : (a.sweep now).2.table.Free r) (hn : n ∈ r.nodes) (hnone : n.label.lease = none)
    (d : Duration) : ∃ h, (a.defaultingTo d).GrantsLease r now n h ∧
      h.autoUnlockAt.toNat = leaseEnd now (d.millis % UInt64.size) := by
  have hfree' : ((a.defaultingTo d).sweep now).2.table.Free r := hfree
  obtain ⟨h, hl, hrecords⟩ := exists_grantsLease_of_free hv hfree' hn
  refine ⟨h, hl, ?_⟩
  rw [hrecords.autoUnlockAt_eq, hnone, leaseEnd, ← Millis.toNat_ofDuration]
  rfl

/-! ## Longer leases -/

/-- Lengths that the clock can show are kept, and with them their order. -/
theorem deadlines_of_fitting (hle : d.nanos ≤ d'.nanos) (hfits : d'.millis < UInt64.size)
    (hd : h.autoUnlockAt.toNat = leaseEnd now (d.millis % UInt64.size))
    (hd' : h'.autoUnlockAt.toNat = leaseEnd now (d'.millis % UInt64.size)) :
    h.autoUnlockAt ≤ h'.autoUnlockAt ∧ h.autoUnlockAt.toNat = leaseEnd now d.millis ∧
      h'.autoUnlockAt.toNat = leaseEnd now d'.millis := by
  have hmillis := Duration.millis_le hle
  rw [Nat.mod_eq_of_lt (Nat.lt_of_le_of_lt hmillis hfits)] at hd
  rw [Nat.mod_eq_of_lt hfits] at hd'
  refine ⟨?_, hd, hd'⟩
  rw [UInt64.le_iff_toNat_le, hd, hd']
  exact leaseEnd_le hmillis now

/-- The deadlines of a tree that is granted, for all lengths of its leases. -/
theorem leaseDeadlines_of_request (hr : a.request r now = .ok (reply, b))
    (hg : reply.isGranted = true) : a.LeaseDeadlines r now := by
  have hv := validate_of_request hr
  have hfree := free_of_request hr hg
  constructor
  case stated => exact fun d n hn hlease => exists_grantsLease_of_lease hv hfree hn hlease
  case asked => exact exists_grantsLease_leasedFor hv hfree
  case unasked => exact fun d n hn hnone => exists_grantsLease_defaultingTo hv hfree hn hnone d
  case longer =>
    rintro d d' h h' hle hfits (⟨hl, hl'⟩ | ⟨n, hn, hnone, hl, hl'⟩)
    · obtain ⟨g, hg, hd⟩ := exists_grantsLease_leasedFor hv hfree d
      obtain ⟨g', hg', hd'⟩ := exists_grantsLease_leasedFor hv hfree d'
      rw [hl.eq hg, hl'.eq hg']
      exact deadlines_of_fitting hle hfits hd hd'
    · obtain ⟨g, hg, hd⟩ := exists_grantsLease_defaultingTo hv hfree hn hnone d
      obtain ⟨g', hg', hd'⟩ := exists_grantsLease_defaultingTo hv hfree hn hnone d'
      rw [hl.eq hg, hl'.eq hg']
      exact deadlines_of_fitting hle hfits hd hd'

/-- An object is leased for a minute and could be leased for an hour. -/
theorem leaseDeadlines_of_minute :
    let a := Authority.ofTable {} ∅
    let r := (Request.of "x").leasedFor (.ofSeconds 60)
    let q := r.leasedFor (.ofSeconds 3600)
    a.LeaseDeadlines r 5 ∧ ∃ h h', a.GrantsLease r 5 r h ∧ a.GrantsLease q 5 q h' ∧
      h.autoUnlockAt ≤ h'.autoUnlockAt ∧ h'.autoUnlockAt = 3600005 := by
  intro a r q
  have hv : r.validate = .ok () := by
    rw [Request.validate, checkIds_eq_ok_iff]
    decide +kernel
  have hp : a.LeaseDeadlines r 5 :=
    leaseDeadlines_of_request (request_of_valid a 5 hv) (by decide +kernel)
  obtain ⟨h, hl, -⟩ := hp.asked (.ofSeconds 60)
  obtain ⟨h', hl', -⟩ := hp.asked (.ofSeconds 3600)
  obtain ⟨hle, -, hend⟩ := hp.longer (by decide) (by decide) (.inl ⟨hl, hl'⟩)
  exact ⟨hp, h, h', hl, hl', hle, UInt64.toNat_inj.mp (hend.trans (by decide))⟩

/-- A lease of as many milliseconds as the clock has dates ends when it begins, before one of a
minute, whether it is asked for or given by default. -/
theorem long_lease_ends_at_once :
    let a := Authority.ofTable {} ∅
    let r := Request.of "x"
    let d := Duration.ofSeconds 60
    let d' := Duration.ofParts 18446744073709551 616000000
    d.nanos ≤ d'.nanos ∧ leaseEnd 5 d'.millis = UInt64.size - 1 ∧
      (∃ h h', a.GrantsLease (r.leasedFor d) 5 (r.leasedFor d) h ∧
        a.GrantsLease (r.leasedFor d') 5 (r.leasedFor d') h' ∧
        h'.autoUnlockAt = 5 ∧ h'.autoUnlockAt < h.autoUnlockAt) ∧
      ∃ h h', (a.defaultingTo d).GrantsLease r 5 r h ∧ (a.defaultingTo d').GrantsLease r 5 r h' ∧
        h'.autoUnlockAt = 5 ∧ h'.autoUnlockAt < h.autoUnlockAt := by
  intro a r d d'
  have hv : r.validate = .ok () := by
    rw [Request.validate, checkIds_eq_ok_iff]
    decide +kernel
  have hfree : (a.sweep 5).2.table.Free r := by
    intro id _
    exact Std.ExtTreeMap.getElem?_empty
  have hdates {h h' : Holding} (hd : h.autoUnlockAt.toNat = leaseEnd 5 (d.millis % UInt64.size))
      (hd' : h'.autoUnlockAt.toNat = leaseEnd 5 (d'.millis % UInt64.size)) :
      h'.autoUnlockAt = 5 ∧ h'.autoUnlockAt < h.autoUnlockAt := by
    refine ⟨UInt64.toNat_inj.mp (hd'.trans (by decide)), ?_⟩
    rw [UInt64.lt_iff_toNat_lt, hd, hd']
    decide
  obtain ⟨h, hl, hd⟩ := exists_grantsLease_leasedFor hv hfree d
  obtain ⟨h', hl', hd'⟩ := exists_grantsLease_leasedFor hv hfree d'
  obtain ⟨g, hm, hg⟩ := exists_grantsLease_defaultingTo hv hfree (Tree.mem_nodes_self r) rfl d
  obtain ⟨g', hm', hg'⟩ := exists_grantsLease_defaultingTo hv hfree (Tree.mem_nodes_self r) rfl d'
  exact ⟨by decide, by decide, ⟨h, h', hl, hl', hdates hd hd'⟩, g, g', hm, hm', hdates hg hg'⟩

end Authority

end LeasedLocks
