import LeasedLocks.Proofs.Cascades
import LeasedLocks.Proofs.Deeds
import LeasedLocks.Proofs.RefusedTrees
import LeasedLocks.Proofs.TimeLimits

/-!
# What holds when time runs out

A call that gives up a tree has waited for all of its time, and when that was over an
object of the tree was still locked: nobody waits in vain for what is free
(`World.locked_when_time_ran_out`).

## Implementation notes

The end of a lease removes nothing and wakes nobody, so the lease that is found may be
over (`World.free_when_time_ran_out`). The history of the authority, `World.deeds`, then
says that since the record was filed nobody has looked at the table at a date beyond the
end of the lease. Tickets become void when a client is shut down, which is why that must
not happen to the client while it waits.
-/

namespace LeasedLocks

variable {ps : List Petition} {n : Nat} {r : Request} {l : Link} {t : TreeWait} {s : CallState}
  {requests : List Request} {d : Duration} {replies : List Reply} {branches : List Branch}
  {failure : Option Fault}

/-- Whoever asks for a tree while a lease on one of its objects lasts is refused. -/
theorem Authority.exists_refused {a : Authority} {h : Holding} {date : Millis}
    (hv : r.validate = .ok ()) (hid : h.objectId ∈ r.objectIds)
    (e : a.table.get? h.objectId = some h) (hlive : h.isExpired date = false) :
    ∃ reply b, a.request r date = .ok (reply, b) ∧ reply.isGranted = false := by
  obtain ⟨reply, b, hreq⟩ := exists_request_of_valid hv a date
  refine ⟨reply, b, hreq, ?_⟩
  cases hgranted : reply.isGranted with
  | false => rfl
  | true =>
      have hfree := (responded_of_request hreq).answered.free_of_granted hgranted _ hid
      have hstays : ¬ h.autoUnlockAt < date := by
        rw [← Holding.isExpired_iff, hlive]
        exact Bool.false_ne_true
      cases hfree.symm.trans ((get?_sweep_iff e).mpr hstays)

/-- A tree that is not reported as granted was granted by none of the petitions. -/
theorem Outcome.ReportsGrants.grants_eq_nil {o : Outcome} (h : o.ReportsGrants ps n r)
    (hrefused : ∃ id ∈ r.objectIds, o.isGranted id = false) : Petition.grants ps n = [] := by
  obtain ⟨id, hid, hungranted⟩ := hrefused
  obtain ⟨q, hq, rfl⟩ := Request.mem_objectIds_iff.mp hid
  obtain ⟨status, hstatus, hiff⟩ := h.granted_iff q hq
  by_contra hgrants
  rw [Outcome.isGranted, hstatus, Option.any_some, hiff.mpr hgrants] at hungranted
  cases hungranted

theorem Request.mem_objectIds_of {id k : String} : k ∈ (Request.of id).objectIds ↔ k = id := by
  simp [Request.of, Request.objectIds, Tree.labels, Tree.nodes, Tree.walk, eq_comm]

namespace World

/-- The call at place `k` of the client at place `i`, which asked for the trees in
`requests` and made these petitions, still has time to wait for at most `d`. -/
structure HasTimeLeft (k i : Nat) (requests : List Request) (d : Duration) (ps : List Petition)
    (w : World) : Prop where
  sound : Sound w
  isOpen : w.authority.bulletin.freed.isClosed = false
  stands : ∃ s l, w.calls[k]? = some ⟨i, s⟩ ∧ w.link? i = some l ∧
    s.Knows requests w.now ps ∧ s.WaitsForRefused requests d w.now ps l

variable {w w' : World} {e : Event} {es : List Event} {i k first moment : Nat} {o : Outcome}

/-- Whatever happens to a client, the stream that it follows stays open. -/
theorem isOpen_of_next (hopen : w.authority.bulletin.freed.isClosed = false)
    (hl : w.link? i = some l) (hn : w.next e = some w') :
    w'.authority.bulletin.freed.isClosed = false := by
  obtain ⟨l', _, _, _, hl', -, -, hd⟩ := (clientsStep_of_next hn).links hl
  have hann := hd.announces
  rw [(link?_eq_some_iff.mp hl).2, (link?_eq_some_iff.mp hl').2] at hann
  exact hann.isClosed_eq.trans hopen

/-- Only the passing of time brings the end of the time of a call, and it brings the end
itself. -/
theorem exists_wait_of_isOut (hcall : w.calls[k]? = some ⟨i, s⟩) (hl : w.link? i = some l)
    (hwaitsFor : s.WaitsForRefused requests d w.now ps l) (hout : s.IsOut requests d w'.now)
    (hn : w.next e = some w') (ht : w.IsTimely k e) :
    ∃ limit calendar first replies branches failure,
      e = .wait limit calendar ∧ limit = first + d.ceilMillis ∧
        w.calls[k]? = some
          ⟨i, .locking requests (some d) (.waiting first d replies branches failure)⟩ := by
  obtain ⟨first, replies, branches, failure, rfl, hge⟩ := hout
  cases hwaitsFor with
  | waiting hlt _ _ =>
      have hle := now_le_of_isTimely hcall hl rfl (Nat.le_of_lt hlt) hn ht
      rcases now_of_next hn with hnow | ⟨moment, calendar, rfl, hnow⟩
      · rw [hnow] at hge
        exact absurd hlt (Nat.not_lt_of_le hge)
      · rw [hnow] at hle hge
        exact ⟨moment, calendar, first, replies, branches, failure, rfl,
          Nat.le_antisymm hle hge, hcall⟩

/-- With one event more the call still has time, or it is this event that brings the end
of its time. -/
theorem HasTimeLeft.next (h : HasTimeLeft k i requests d ps w) (hd : 0 < d.ceilMillis)
    (hv : ∀ q ∈ requests, q.validate = .ok ()) (ht : w.IsTimely k e) (hn : w.next e = some w')
    (hplans : ∀ i plan, e ≠ .planOpenings i plan) (hshut : e ≠ .shutdown i) :
    HasTimeLeft k i requests d (ps ++ w.petitionsOf k e) w' ∨
      ∃ limit calendar first replies branches failure,
        e = .wait limit calendar ∧ limit = first + d.ceilMillis ∧
          w.calls[k]? = some
            ⟨i, .locking requests (some d) (.waiting first d replies branches failure)⟩ := by
  obtain ⟨s, l, hcall, hl, hknows, hwaitsFor⟩ := h.stands
  have hlocal := isLocal_of_link? h.sound.isLocal hl
  obtain ⟨s', hs', hhonest', -, -⟩ := knows_of_next hn hl hlocal.script_eq hv hcall hknows
  have hown : ∀ client ∈ w.clients, client.own = none :=
    fun client hc => (h.sound.isLocal.clients client hc).own_eq
  obtain ⟨l', hl', hup⟩ := noNewVoid_of_next h.sound.serves h.isOpen hown hn hshut l hl
  have hgood : ∀ t ∈ s'.waits, ∀ k ∈ t.tickets, l'.IsVoid k → l.IsVoid k :=
    fun t ht k hk => hup k (mem_ticketsOf_waits hs' ht hk)
  have hstays (hpersists' : s'.WaitsForRefused requests d w'.now (ps ++ w.petitionsOf k e) l') :
      HasTimeLeft k i requests d (ps ++ w.petitionsOf k e) w' :=
    ⟨h.sound.next hn hplans, isOpen_of_next h.isOpen hl hn, s', l', hs', hl', hhonest', hpersists'⟩
  rcases callStep_of_next hn hl hl' hcall with ⟨hsame, -⟩ | ⟨s₁, hb, hnow, hs₁, -⟩
  · -- somebody else's event, or time passes
    rw [hs'] at hsame
    cases hsame
    by_cases hout : s.IsOut requests d w'.now
    · exact .inr (exists_wait_of_isOut hcall hl hwaitsFor hout hn ht)
    · exact .inl (hstays (hwaitsFor.onward hout hgood).append)
  · rw [hs'] at hs₁
    cases hs₁
    left
    apply hstays
    rw [hnow]
    cases hb with
    | call hstep =>
        rw [petitionsOf_turn hcall hl rfl]
        exact hwaitsFor.step hd hknows hstep
    | branch hstep => exact (hwaitsFor.stepBranch (h.sound.serves hl) hstep hgood).append
    | cancel => exact (CallState.waitsForRefused_cancel hwaitsFor).append

/-- A call of which some wait has failed returns no outcome. -/
theorem ne_ok_of_failure {wait : Option Duration} {e : Fault} (hr : Run w es w')
    (hcall : w.calls[k]? = some
      ⟨i, .locking requests wait (.waiting first d replies branches (some e))⟩) :
    w'.calls[k]? ≠ some ⟨i, .returned moment (.locked (.ok o))⟩ := by
  induction hr generalizing replies branches e with
  | nil w =>
      rw [hcall]
      exact fun h => nomatch h
  | @cons w w₁ w' event es hn hr ih =>
      rcases exists_callStep_of_next hn hcall with ⟨hsame, -⟩ | ⟨l, s, l', -, hb, -, hs, -⟩
      · exact ih hsame
      · cases hb with
        | call hstep =>
            cases CallState.steps_of_step hstep with
            | finishes _ hfinish =>
                rw [over_of_run hr hs rfl]
                intro hreturned
                cases hreturned
                cases (CallState.assemble_of_finish hfinish).1
        | branch hstep =>
            obtain ⟨_, _, _, _, _, _, _, _, _, _, hEq, -, -, rfl⟩ :=
              CallState.stepBranch_eq_some hstep
            cases hEq
            exact ih hs
        | cancel =>
            rw [over_of_run hr hs rfl]
            exact fun h => nomatch h

theorem min_ofMillis_of_le {m : Nat} (h : d.nanos ≤ m * 1000000) :
    Duration.min (.ofMillis m) d = d := congrArg Duration.mk (Nat.min_eq_right h)

/-- A call that goes on to the end of its time returns at that very moment. -/
theorem eq_of_time_over (hr : w.TimelyRun k es w') (hl : w.link? i = some l)
    (hcall : w.calls[k]? = some
      ⟨i, .locking requests (some d) (.waiting first d replies branches failure)⟩)
    (hnow : w.now = first + d.ceilMillis)
    (hend : w'.calls[k]? = some ⟨i, .returned moment (.locked (.ok o))⟩) :
    moment = first + d.ceilMillis ∧ o.waited = d := by
  obtain ⟨s, hs, hwaits⟩ := waitsAtMost_of_run hr hl hcall (Nat.le_of_eq hnow)
  rw [hend] at hs
  cases hs
  cases hwaits with
  | returned hge hle _ hwaited =>
      rw [hnow] at hge
      obtain rfl := Nat.le_antisymm hle hge
      refine ⟨rfl, ?_⟩
      calc
        o.waited = .min (.ofMillis (first + d.ceilMillis - first)) d := hwaited o rfl
        _ = .min (.ofMillis d.ceilMillis) d := by rw [Nat.add_sub_cancel_left]
        _ = d := min_ofMillis_of_le (nanos_le_ceilMillis d)

/-- Whoever still waits for a tree when all tasks are at rest waits for an object that is
locked. -/
theorem Sound.exists_isLocked_of_mem_waits (hw : Sound w) (hq : system.Quiescent w)
    (hl : w.link? i = some l) (ht : t ∈ w.waits i) :
    ∃ id ∈ t.request.objectIds, w.authority.isLocked id := by
  have hpump : l.client.unlocks.pump l.freed = none := by
    have hstep := hq (.freedPump i)
    change (w.link? i).bind _ = none at hstep
    rw [hl] at hstep
    exact Option.map_eq_none_iff.mp hstep
  have hlocked := TreeWait.exists_isLocked_of_blocked (hw.serves hl) (hw.guarded hl)
    (fun u hu => blocked_of_quiescent hq hl hu) hpump ht
  rwa [(link?_eq_some_iff.mp hl).2] at hlocked

/-- At rest, every tree that a call still has to get has an object that is locked. -/
theorem HasTimeLeft.exists_isLocked (h : HasTimeLeft k i requests d ps w) (hq : system.Quiescent w)
    (hcall : w.calls[k]? = some
      ⟨i, .locking requests (some d) (.waiting first d replies branches none)⟩)
    (hr : requests[n]? = some r) (hrefused : Petition.grants ps n = []) :
    w.now < first + d.ceilMillis ∧ ∃ id ∈ r.objectIds, w.authority.isLocked id := by
  obtain ⟨s, l, hs, hl, hknows, hwaitsFor⟩ := h.stands
  rw [hcall] at hs
  cases hs
  cases hwaitsFor with
  | waiting hlt _ hcovered =>
      refine ⟨hlt, ?_⟩
      cases hknows with
      | waits _ hplaces htracks =>
          obtain ⟨hlength, -, hsettled⟩ := htracks rfl
          have hn := (List.getElem?_eq_some_iff.mp hr).1
          have hreply := List.getElem?_eq_getElem (hlength ▸ hn)
          by_cases hlive : ∃ t, (⟨n, some t⟩ : Branch) ∈ branches
          · obtain ⟨t, hb⟩ := hlive
            have hrequest := hplaces _ hb t rfl
            rw [hr] at hrequest
            cases hrequest
            refine h.sound.exists_isLocked_of_mem_waits hq hl ?_
            refine List.mem_flatMap.mpr ⟨_, List.mem_of_getElem? hcall, ?_⟩
            rw [waitsAt, if_pos rfl]
            exact List.mem_filterMap.mpr ⟨_, hb, rfl⟩
          · -- nobody waits for the tree any more, so it was granted
            obtain ⟨p, -, -, hgrants⟩ := hsettled hr hreply fun t hb => hlive ⟨t, hb⟩
            rw [hrefused] at hgrants
            split at hgrants
            · cases hgrants
            · next hungranted =>
                exact absurd (hcovered rfl hreply (Bool.not_eq_true _ ▸ hungranted)) hlive

/-- A call that returns without some tree has waited as long as it was allowed to, and
when the end of its time came an object of the tree was locked. -/
theorem HasTimeLeft.exists_wait (h : HasTimeLeft k i requests d ps w) (hd : 0 < d.ceilMillis)
    (hv : ∀ q ∈ requests, q.validate = .ok ()) (hfollow : w.followTimely es = some w')
    (hes : ∀ e ∈ es, (∀ i plan, e ≠ .planOpenings i plan) ∧ e ≠ .shutdown i)
    (hend : w'.calls[k]? = some ⟨i, .returned moment (.locked (.ok o))⟩)
    (hr : requests[n]? = some r) (hrefused : Petition.grants (ps ++ w.petitions k es) n = []) :
    o.waited = d ∧ ∃ before calendar after w₁, es = before ++ .wait moment calendar :: after ∧
      w.followTimely before = some w₁ ∧ w₁.now < moment ∧
        ∃ id ∈ r.objectIds, w₁.authority.isLocked id := by
  induction es generalizing w ps with
  | nil =>
      cases hfollow
      obtain ⟨s, l, hs, -, -, hwaitsFor⟩ := h.stands
      rw [hend] at hs
      cases hs
      cases hwaitsFor with
      | returned hall =>
          rw [petitions, List.append_nil] at hrefused
          exact absurd hrefused (hall o rfl n (List.getElem?_eq_some_iff.mp hr).1)
  | cons e es ih =>
      obtain ⟨hkeeps, hbind⟩ := Option.ite_none_right_eq_some.mp hfollow
      obtain ⟨w₁, hn, hrest⟩ := Option.bind_eq_some_iff.mp hbind
      obtain ⟨hplans, hshut⟩ := hes e List.mem_cons_self
      rw [petitions_cons hn, ← List.append_assoc] at hrefused
      rcases h.next hd hv (isTimely_of_keepsTime hkeeps) hn hplans hshut with
        hnext | ⟨limit, calendar, first, replies, branches, failure, rfl, hlimit, hcall⟩
      · obtain ⟨hwaited, before, calendar, after, w₂, rfl, hbefore, hlast⟩ :=
          ih hnext hrest (fun e he => hes e (List.mem_cons_of_mem _ he)) hrefused
        refine ⟨hwaited, e :: before, calendar, after, w₂, rfl, ?_, hlast⟩
        rw [followTimely, if_pos hkeeps, hn]
        exact hbefore
      · have hq := (quiescent_iff_ready_eq_nil w).mpr
          (List.isEmpty_iff.mp (Bool.and_eq_true_iff.mp hkeeps).1)
        obtain ⟨_, l, -, hl, -⟩ := h.stands
        obtain ⟨-, hw₁⟩ := Option.ite_none_right_eq_some.mp hn
        cases hw₁
        have htimely : TimelyRun k _ es w' := timelyRun_of_followTimely hrest
        obtain ⟨hmoment, hwaited⟩ := eq_of_time_over htimely hl hcall hlimit hend
        obtain rfl := hmoment.trans hlimit.symm
        refine ⟨hwaited, [], calendar, es, w, rfl, rfl, ?_⟩
        cases failure with
        | some e => exact absurd hend (ne_ok_of_failure htimely.run hcall)
        | none =>
            rw [List.append_assoc, Petition.grants_append] at hrefused
            rw [hlimit]
            exact h.exists_isLocked hq hcall hr (List.append_eq_nil_iff.mp hrefused).1

/-! ## From the beginning -/

/-- A call that returns without some of its trees asked for them in the beginning, and was
ready to wait for some time. -/
theorem hasTimeLeft_of_lock (hw : Sound w) (hopen : w.authority.bulletin.freed.isClosed = false)
    (hl : w.link? i = some l) (hrun : Run (w.lock i requests (some d)) es w')
    (hend : w'.calls[w.calls.length]? = some ⟨i, .returned moment (.locked (.ok o))⟩)
    (hr : requests[n]? = some r) :
    0 < d.ceilMillis ∧ checkIds (requests.flatMap Request.objectIds) = .ok () ∧
      HasTimeLeft w.calls.length i requests d [] (w.lock i requests (some d)) := by
  have hn : w.next (.lock i requests (some d)) = some (w.lock i requests (some d)) := rfl
  obtain ⟨s, l', hcall, hl', -, -, hs⟩ := lock_cases hl requests (some d)
  rcases hs with ⟨result, rfl, hempty⟩ | ⟨hvalid, rfl⟩
  · have hresult := over_of_run hrun hcall rfl
    rw [hend] at hresult
    cases hresult
    obtain ⟨rfl, -⟩ := hempty o rfl
    cases hr
  · have hnonzero : ¬ d.isZero = true := by
      intro hzero
      simp only [Client.validate, if_pos hzero] at hvalid
      cases hvalid
    have hpos : d.nanos ≠ 0 := fun h => hnonzero (beq_iff_eq.mpr h)
    have hscript := (isLocal_of_link? hw.isLocal hl).script_eq
    have hsound : Sound (w.lock i requests (some d)) := hw.next hn fun _ _ h => nomatch h
    have hknows : CallState.Knows requests (w.lock i requests (some d)).now []
        (.locking requests (some d) (.asking
          (.start (l.client.route.lockScript.head?.getD {}) l.client.settings.requestTimeout
            w.now))) := by
      rw [hscript]
      exact .sends rfl (Nat.le_of_eq (now_start _).symm) rfl
    refine ⟨?_, checkIds_of_validate hvalid, ?_⟩
    · unfold Duration.ceilMillis
      omega
    · exact ⟨hsound, isOpen_of_next hopen hl hn, _, l', hcall, hl', hknows, .asking⟩

theorem asksValid_of_isFresh (hw : IsFresh w) : w.AsksValid := by
  intro call hcall
  rw [hw.calls_eq] at hcall
  cases hcall

/-- The stream that the authority announces on stays open. -/
theorem isOpen_of_run {w₀ : World} (hw₀ : IsFresh w₀) (hpre : Run w₀ es w)
    (hplans : ∀ e ∈ es, ∀ i plan, e ≠ .planOpenings i plan)
    (hopen : w₀.authority.bulletin.freed.isClosed = false) :
    w.authority.bulletin.freed.isClosed = false := by
  rw [authority_of_run hpre (sound_of_isFresh hw₀).isLocal (asksValid_of_isFresh hw₀) hplans,
    (Authority.Announces.enactAll w₀.authority (w₀.deeds es)).isClosed_eq]
  exact hopen

/-- What a call that returns reports of its trees is what its petitions came to. -/
theorem HasTimeLeft.reportsGrants (h : HasTimeLeft k i requests d [] w)
    (hids : checkIds (requests.flatMap Request.objectIds) = .ok ()) (hrun : Run w es w')
    (hend : w'.calls[k]? = some ⟨i, .returned moment (.locked (.ok o))⟩)
    (hr : requests[n]? = some r) : o.ReportsGrants (w.petitions k es) n r := by
  obtain ⟨s, l, hcall, hl, hknows, -⟩ := h.stands
  have hscript := (isLocal_of_link? h.sound.isLocal hl).script_eq
  have hv : ∀ q ∈ requests, q.validate = .ok () := fun q hq => validate_of_checkIds hids hq
  obtain ⟨s', hs', hhonest', -, hasked⟩ := knows_of_run hrun hl hscript hv hcall hknows
  rw [hend] at hs'
  cases hs'
  cases hhonest' with
  | returned hresult =>
      obtain ⟨replies, waited, hall, hassemble⟩ := hresult o rfl
      exact Outcome.reportsGrants_of_settled hall hassemble hids hasked hr

/-- A call that is ready to wait and reports one of its trees as not granted has waited as
long as it was allowed to. When the clock came to the moment at which it returned, an object
of the tree was locked: as long as that lease lasts, whoever asks for the tree is refused,
and if it was over by then, nobody had looked at the table since. -/
theorem locked_when_time_ran_out {w₀ : World} {pre : List Event} (hw₀ : IsFresh w₀)
    (hopen : w₀.authority.bulletin.freed.isClosed = false) (hpre : Run w₀ pre w)
    (hplans : ∀ e ∈ pre, ∀ i plan, e ≠ .planOpenings i plan) (hl : w.link? i = some l)
    (hfollow : (w.lock i requests (some d)).followTimely es = some w')
    (hes : ∀ e ∈ es, (∀ i plan, e ≠ .planOpenings i plan) ∧ e ≠ .shutdown i)
    (hend : w'.calls[w.calls.length]? = some ⟨i, .returned moment (.locked (.ok o))⟩)
    (hr : requests[n]? = some r) (hrefused : ∃ id ∈ r.objectIds, o.isGranted id = false) :
    o.waited = d ∧ ∃ before calendar after w₁ h,
      es = before ++ .wait moment calendar :: after ∧
      (w.lock i requests (some d)).followTimely before = some w₁ ∧ w₁.now < moment ∧
      h.objectId ∈ r.objectIds ∧ w₁.authority.table.get? h.objectId = some h ∧
      (∀ date, h.isExpired date = false → ∃ reply a,
        w₁.authority.request r date = .ok (reply, a) ∧ reply.isGranted = false) ∧
      ((w₀.authority.table.get? h.objectId = some h ∧
          w₀.authority.Lasts h (w₀.deeds (pre ++ .lock i requests (some d) :: before))) ∨
        ∃ m, w₀.authority.FiledAt (w₀.deeds (pre ++ .lock i requests (some d) :: before)) m h) := by
  have hw₀' := sound_of_isFresh hw₀
  have hw := hw₀'.run hpre hplans
  have hrun : Run (w.lock i requests (some d)) es w' :=
    (timelyRun_of_followTimely (k := w.calls.length) hfollow).run
  obtain ⟨hd, hids, hleft⟩ :=
    hasTimeLeft_of_lock hw (isOpen_of_run hw₀ hpre hplans hopen) hl hrun hend hr
  have hv : ∀ q ∈ requests, q.validate = .ok () := fun q hq => validate_of_checkIds hids hq
  have hgrants := (hleft.reportsGrants hids hrun hend hr).grants_eq_nil hrefused
  obtain ⟨hwaited, before, calendar, after, w₁, rfl, hbefore, hlt, id, hid, hlocked⟩ :=
    hleft.exists_wait hd hv hfollow hes hend hr hgrants
  obtain ⟨h, hget⟩ := (Authority.isLocked_iff _ id).mp hlocked
  obtain rfl := Table.objectId_of_get? hget
  refine ⟨hwaited, before, calendar, after, w₁, h, rfl, hbefore, hlt, hid, hget, ?_, ?_⟩
  · exact fun date hlive =>
      Authority.exists_refused (hv r (List.mem_of_getElem? hr)) hid hget hlive
  · -- from the beginning all that became of the table are the deeds of the run
    have hlock : w.next (.lock i requests (some d)) = some (w.lock i requests (some d)) := rfl
    have hsofar : Run (w.lock i requests (some d)) before w₁ :=
      (timelyRun_of_followTimely (k := w.calls.length) hbefore).run
    have hno : ∀ e ∈ pre ++ .lock i requests (some d) :: before,
        ∀ i plan, e ≠ .planOpenings i plan := by
      intro e he
      rcases List.mem_append.mp he with he | he
      · exact hplans e he
      · rcases List.mem_cons.mp he with rfl | he
        · exact fun _ _ h => nomatch h
        · exact (hes e (List.mem_append_left _ he)).1
    rw [authority_of_run (hpre.append (.cons hlock hsofar)) hw₀'.isLocal
      (asksValid_of_isFresh hw₀) hno] at hget
    exact Authority.lasts_or_filedAt hget

/-- Somebody holds these trees, and a client is there that may ask for them. -/
def ofHeld (requests : List Request) : World where
  calendar := 0
  base := some 0
  authority := (Authority.ofTable {} ∅).enactAll (requests.map fun r => .request r 0)
  clients := [{ route := { base := some 0 } }]

theorem isFresh_ofHeld (requests : List Request) : IsFresh (ofHeld requests) := by
  refine ⟨rfl, ?_, ?_⟩ <;> intro client hc <;> obtain rfl := List.mem_singleton.mp hc
  · exact ⟨rfl, rfl, rfl⟩
  · rfl

theorem isOpen_ofHeld (requests : List Request) :
    (ofHeld requests).authority.bulletin.freed.isClosed = false :=
  (Authority.Announces.enactAll (Authority.ofTable {} ∅) _).isClosed_eq

/-- What a call returns in a run can be computed. -/
theorem exists_returned {β : Type} (f : World → β) {b : β} {id : String} {granted : Bool}
    (h : (w.followTimely es).map (fun w => (f w, w.calls[k]?.bind fun call =>
      call.state.outcome?.map fun x => (call.client, x.1, x.2.waited, x.2.isGranted id))) =
        some (b, some (i, moment, d, granted))) :
    ∃ w' o, w.followTimely es = some w' ∧ f w' = b ∧
      w'.calls[k]? = some ⟨i, .returned moment (.locked (.ok o))⟩ ∧ o.waited = d ∧
        o.isGranted id = granted := by
  obtain ⟨w', hw, hend⟩ := Option.map_eq_some_iff.mp h
  obtain ⟨hf, hend⟩ := Prod.mk.inj hend
  obtain ⟨⟨client, s⟩, hcall, hend⟩ := Option.bind_eq_some_iff.mp hend
  obtain ⟨⟨moment', o⟩, hreturned, hreport⟩ := Option.map_eq_some_iff.mp hend
  cases hreport
  obtain rfl := CallState.eq_of_outcome? hreturned
  exact ⟨w', o, hw, hf, hcall, rfl, rfl⟩

/-- A call asks, waits for a tree, and has time until the first second is over. -/
def waitedOut : List Event :=
  [.turn (.call 0), .turn (.call 0)] ++ List.replicate 5 (.turn (.branch 0 0)) ++
    [.wait 1000 0, .turn (.branch 0 0)]

theorem locked_of_waitedOut : ∃ w' o before w₁ h,
    ((ofHeld [Request.of "x"]).lock 0 [Request.of "x"] (some (.ofMillis 1000))).followTimely
        (waitedOut ++ [.turn (.call 0)]) = some w' ∧
      w'.calls[0]? = some ⟨0, .returned 1000 (.locked (.ok o))⟩ ∧
      o.isGranted "x" = false ∧ o.waited = .ofMillis 1000 ∧
      ((ofHeld [Request.of "x"]).lock 0 [Request.of "x"] (some (.ofMillis 1000))).followTimely
        before = some w₁ ∧ w₁.now < 1000 ∧ h.objectId = "x" ∧
      w₁.authority.table.get? h.objectId = some h := by
  have hend : (((ofHeld [Request.of "x"]).lock 0 [Request.of "x"]
      (some (.ofMillis 1000))).followTimely (waitedOut ++ [.turn (.call 0)])).map (fun w =>
        (w.now, w.calls[0]?.bind fun call => call.state.outcome?.map fun x =>
          (call.client, x.1, x.2.waited, x.2.isGranted "x"))) =
            some (1000, some (0, 1000, .ofMillis 1000, false)) := by
    decide +kernel
  obtain ⟨w', o, hw, -, hcall, -, hrefused⟩ := exists_returned World.now hend
  obtain ⟨l, hl⟩ : ∃ l, (ofHeld [Request.of "x"]).link? 0 = some l :=
    exists_link?_of_lt Nat.one_pos
  have hes : ∀ e ∈ waitedOut ++ [.turn (.call 0)],
      (∀ i plan, e ≠ .planOpenings i plan) ∧ e ≠ .shutdown 0 := by
    simp [waitedOut]
  obtain ⟨hwaited, before, -, -, w₁, h, -, hbefore, hlt, hid, hget, -⟩ :=
    locked_when_time_ran_out (isFresh_ofHeld _) (isOpen_ofHeld _) (.nil _)
      (fun _ h => nomatch h) hl hw hes hcall (n := 0) rfl
        ⟨"x", Request.mem_objectIds_of.mpr rfl, hrefused⟩
  exact ⟨w', o, before, w₁, h, hw, hcall, hrefused, hwaited, hbefore, hlt,
    Request.mem_objectIds_of.mp hid, hget⟩

/-! ## Leases that end by themselves -/

/-- A client asks for the tree `r` among others and is ready to wait for `d`; when all of
this time is over its call returns, and the tree is not granted. -/
structure RanOut (w₀ : World) (pre es : List Event) (i : Nat) (d : Duration) (r : Request)
    (w' : World) : Prop where
  isFresh : IsFresh w₀
  isOpen : w₀.authority.bulletin.freed.isClosed = false
  /-- Everybody is on the same clock. -/
  base_eq : ∀ client ∈ w₀.clients, client.route.base = w₀.base
  plans : ∀ e ∈ pre ++ es, ∀ i plan, e ≠ .planOpenings i plan
  sweepers : w₀.sweepers = [] ∧ ∀ e ∈ pre ++ es, ∀ interval, e ≠ .sweepEvery interval
  returned : ∃ w requests o, Run w₀ pre w ∧ r ∈ requests ∧
    (w.lock i requests (some d)).followTimely (es ++ [.turn (.call w.calls.length)]) = some w' ∧
    w'.calls[w.calls.length]? = some ⟨i, .returned w'.now (.locked (.ok o))⟩ ∧
    o.waited = d ∧ ∃ id ∈ r.objectIds, o.isGranted id = false

/-- One of two trees is waited for while the client is shut down, the other one from then
on. The first one is given back before the time is over. -/
def shutWhileWaiting : List Event :=
  [.turn (.call 0), .turn (.call 0)] ++ List.replicate 5 (.turn (.branch 0 0)) ++
    [.shutdown 0, .turn (.branch 0 0)] ++ List.replicate 5 (.turn (.branch 0 1)) ++
    [.visit (.release "x" false), .turn (.freedPump 0), .wait 1000 0, .turn (.branch 0 1)]

theorem ranOut_ofHeld (held : List Request) {id : String} (hid : Request.of id ∈ requests)
    (hes : ∀ e ∈ es, (∀ i plan, e ≠ .planOpenings i plan) ∧
      ∀ interval, e ≠ .sweepEvery interval)
    (hw : ((ofHeld held).lock 0 requests (some d)).followTimely
      (es ++ [.turn (.call 0)]) = some w')
    (hcall : w'.calls[0]? = some ⟨0, .returned w'.now (.locked (.ok o))⟩)
    (hwaited : o.waited = d) (hrefused : o.isGranted id = false) :
    RanOut (ofHeld held) [] es 0 d (Request.of id) w' where
  isFresh := isFresh_ofHeld held
  isOpen := isOpen_ofHeld held
  base_eq := by
    intro client hclient
    rw [List.mem_singleton.mp hclient]
    rfl
  plans := fun e he => (hes e he).1
  sweepers := ⟨rfl, fun e he => (hes e he).2⟩
  returned := ⟨_, requests, o, .nil _, hid, hw, hcall, hwaited, id,
    Request.mem_objectIds_of.mpr rfl, hrefused⟩

/-- When all of its time is over, a lease that ended by itself may be all that is left of
what a call waits for; and if its client was shut down in between, nothing at all. -/
theorem free_when_time_ran_out :
    (¬ ∀ (w₀ w' : World) (pre es : List Event) (i : Nat) (d : Duration) (r : Request),
      RanOut w₀ pre es i d r w' → .shutdown i ∉ es →
        ∃ id ∈ r.objectIds, ∃ h, w'.authority.table.get? id = some h ∧
          h.isExpired w'.date = false) ∧
    ¬ ∀ (w₀ w' : World) (pre es : List Event) (i : Nat) (d : Duration) (r : Request),
      RanOut w₀ pre es i d r w' → ∃ id ∈ r.objectIds, w'.authority.isLocked id := by
  constructor
  · intro hall
    have hend : (((ofHeld [(Request.of "x").leasedFor (.ofMillis 10)]).lock 0 [Request.of "x"]
        (some (.ofMillis 1000))).followTimely (waitedOut ++ [.turn (.call 0)])).map (fun w =>
          ((w.now, (w.authority.table.get? "x").all (·.isExpired w.date)),
            w.calls[0]?.bind fun call => call.state.outcome?.map fun x =>
              (call.client, x.1, x.2.waited, x.2.isGranted "x"))) =
                some ((1000, true), some (0, 1000, .ofMillis 1000, false)) := by
      decide +kernel
    obtain ⟨w', o, hw, hf, hcall, hwaited, hrefused⟩ := exists_returned
      (fun w => (w.now, (w.authority.table.get? "x").all (·.isExpired w.date))) hend
    obtain ⟨hnow, hexpired⟩ := Prod.mk.inj hf
    rw [← hnow] at hcall
    have hout := ranOut_ofHeld _ List.mem_cons_self (by simp [waitedOut]) hw hcall hwaited
      hrefused
    obtain ⟨id, hid, h, hget, hlive⟩ := hall _ _ _ _ _ _ _ hout (by simp [waitedOut])
    obtain rfl := Request.mem_objectIds_of.mp hid
    rw [hget, Option.all_some, hlive] at hexpired
    cases hexpired
  · intro hall
    have hend : (((ofHeld [Request.of "x", Request.of "y"]).lock 0
        [Request.of "x", Request.of "y"] (some (.ofMillis 1000))).followTimely
          (shutWhileWaiting ++ [.turn (.call 0)])).map (fun w =>
            ((w.now, w.authority.isLocked "x"), w.calls[0]?.bind fun call =>
              call.state.outcome?.map fun x =>
                (call.client, x.1, x.2.waited, x.2.isGranted "x"))) =
                  some ((1000, false), some (0, 1000, .ofMillis 1000, false)) := by
      decide +kernel
    obtain ⟨w', o, hw, hf, hcall, hwaited, hrefused⟩ := exists_returned
      (fun w => (w.now, w.authority.isLocked "x")) hend
    obtain ⟨hnow, hfree⟩ := Prod.mk.inj hf
    rw [← hnow] at hcall
    have hout := ranOut_ofHeld _ List.mem_cons_self (by simp [shutWhileWaiting]) hw hcall
      hwaited hrefused
    obtain ⟨id, hid, hlocked⟩ := hall _ _ _ _ _ _ _ hout
    obtain rfl := Request.mem_objectIds_of.mp hid
    rw [hfree] at hlocked
    cases hlocked

end World

end LeasedLocks
