import LeasedLocks.Proofs.Monitor
import LeasedLocks.Proofs.Waitlist
import LeasedLocks.UnlockWatch

/-!
# A watch over freed objects at work

What each operation of the watch does to those who hold tickets. Callers who
come, open the stream or leave do not disturb the other tickets, and the monitor
settles a ticket only for a reason that it read.

## Implementation notes

`UnlockWatch.Assured` and `UnlockWatch.Expects` speak of one ticket and one object,
so that they are kept by every operation that others perform on the watch.
-/

namespace LeasedLocks

/-- The tickets in `held` are out, exactly `openings` callers open the stream, and
the monitor reads nothing that is not written yet. -/
structure UnlockWatch.Serves (w : UnlockWatch) (freed : Channel (List String))
    (held : List Ticket) (openings : Nat) : Prop where
  accounts : w.list.Accounts held
  tracks : w.monitor.Tracks openings
  place_le : ∀ {place : Nat}, w.monitor.phase = .running place → place ≤ freed.sent

namespace UnlockWatch

/-- The monitor runs unless the ticket is settled. -/
def Assured (w : UnlockWatch) (t : Ticket) : Prop :=
  w.list.outcome? t = none → w.monitor.isRunning

/-- The monitor has yet to read a batch that names the object. -/
def Expects (w : UnlockWatch) (freed : Channel (List String)) (id : String) : Prop :=
  ∃ (place k : Nat) (batch : List String),
    w.monitor.phase = .running place ∧ place ≤ k ∧ freed.log[k]? = some batch ∧ id ∈ batch

/-- What the monitor reads next. -/
def reading? (w : UnlockWatch) (freed : Channel (List String)) : Option (Reading (List String)) :=
  match w.monitor.phase with
  | .running place => some (freed.read place).1
  | _ => none

/-- The monitor is about to read that the object became free, or that notices
were missed. -/
def Hears (w : UnlockWatch) (freed : Channel (List String)) (id : String) : Prop :=
  (∃ batch, w.reading? freed = some (.item batch) ∧ id ∈ batch) ∨
    ∃ missed, w.reading? freed = some (.lagged missed)

/-- How many notices the monitor can read before more is written, the end of the
stream included. -/
def readings (w : UnlockWatch) (freed : Channel (List String)) : Nat :=
  match w.monitor.phase with
  | .running place => freed.sent - place + 1
  | _ => 0

/-- The second watch treats a ticket as the first one does. -/
structure Undisturbed (v w : UnlockWatch) (t : Ticket) : Prop where
  outcome?_eq : w.list.outcome? t = v.list.outcome? t
  running : ∀ {place : Nat}, v.monitor.phase = .running place →
    w.monitor.phase = .running place

variable {u v w w' : UnlockWatch} {held : List Ticket} {n now : Nat} {t : Ticket}
  {ids : List String} {id : String} {freed freed' : Channel (List String)} {j : Joining}
  {r : Joined} {s s' : Source}

namespace Undisturbed

theorem refl (w : UnlockWatch) (t : Ticket) : Undisturbed w w t := ⟨rfl, fun h => h⟩

theorem trans (huv : Undisturbed u v t) (hvw : Undisturbed v w t) : Undisturbed u w t :=
  ⟨hvw.outcome?_eq.trans huv.outcome?_eq, fun h => hvw.running (huv.running h)⟩

theorem isRunning (h : Undisturbed v w t) (hv : v.monitor.isRunning) : w.monitor.isRunning := by
  rw [Monitor.isRunning_iff] at hv ⊢
  obtain ⟨place, hp⟩ := hv
  exact ⟨place, h.running hp⟩

theorem assured (h : Undisturbed v w t) (hv : v.Assured t) : w.Assured t := by
  intro ho
  rw [h.outcome?_eq] at ho
  exact h.isRunning (hv ho)

theorem expects (h : Undisturbed v w t) (hv : v.Expects freed id) : w.Expects freed id := by
  obtain ⟨place, k, batch, hp, hle, hk, hmem⟩ := hv
  exact ⟨place, k, batch, h.running hp, hle, hk, hmem⟩

end Undisturbed

/-- What is yet to be read stays so when more is written. -/
theorem Expects.mono (h : w.Expects freed id)
    (hlog : ∀ {k : Nat} {batch : List String}, freed.log[k]? = some batch →
      freed'.log[k]? = some batch) : w.Expects freed' id := by
  obtain ⟨place, k, batch, hp, hle, hk, hmem⟩ := h
  exact ⟨place, k, batch, hp, hle, hlog hk, hmem⟩

namespace Serves

theorem initial (freed : Channel (List String)) : Serves {} freed [] 0 :=
  ⟨.empty, .initial, fun h => nomatch h⟩

theorem perm {held' : List Ticket} (h : w.Serves freed held n) (hp : held.Perm held') :
    w.Serves freed held' n :=
  ⟨h.accounts.perm hp, h.tracks, h.place_le⟩

/-- More may be written. -/
theorem mono (h : w.Serves freed held n) (hle : freed.sent ≤ freed'.sent) :
    w.Serves freed' held n :=
  ⟨h.accounts, h.tracks, fun hp => Nat.le_trans (h.place_le hp) hle⟩

/-! ## Coming and going -/

theorem register (h : w.Serves freed held n) (ids : List String) :
    (w.register ids).2.Serves freed ((w.register ids).1 ++ held) n :=
  ⟨h.accounts.registerAll ids, h.tracks, h.place_le⟩

theorem release (h : w.Serves freed (t :: held) n) : (w.release t).Serves freed held n := by
  constructor
  case accounts => exact h.accounts.release
  case tracks =>
    change Monitor.Tracks (if _ then _ else _) n
    split
    · exact h.tracks.stop
    · exact h.tracks
  case place_le =>
    intro place hp
    simp only [UnlockWatch.release] at hp
    split at hp
    · exact h.place_le (Monitor.running_of_stop hp)
    · exact h.place_le hp

theorem releaseAll {ts : List Ticket} (h : w.Serves freed (ts ++ held) n) :
    (w.releaseAll ts).Serves freed held n := by
  induction ts generalizing w with
  | nil => exact h
  | cons t ts ih => exact ih h.release

theorem leave (h : w.Serves freed held (j.openings + n)) :
    (w.leave j).Serves freed held n := by
  refine ⟨h.accounts, h.tracks.cancel, ?_⟩
  intro place hp
  cases j with
  | waiting => exact h.place_le hp
  | opening o => cases hp

theorem report (h : w.Serves freed held n) (ids : List String) :
    (w.report ids).Serves freed held n :=
  ⟨h.accounts.settleAll true ids, h.tracks, h.place_le⟩

theorem shutdown (h : w.Serves freed held n) : w.shutdown.Serves freed held n :=
  ⟨h.accounts.settleAll false _, h.tracks.stop,
    fun hp => h.place_le (Monitor.running_of_stop hp)⟩

end Serves

theorem undisturbed_register (w : UnlockWatch) (ids : List String) (t : Ticket) :
    Undisturbed w (w.register ids).2 t where
  outcome?_eq := by
    change (w.list.registerAll ids).2.outcome? t = _
    rw [Waitlist.outcome?, Waitlist.outcomes_registerAll, Waitlist.outcome?]
  running h := h

/-- Whoever keeps a ticket does not notice that another one is given back. -/
theorem Serves.undisturbed_release {k : Ticket} (h : w.Serves freed (k :: held) n) (ht : t ∈ held) :
    Undisturbed w (w.release k) t where
  outcome?_eq := h.accounts.outcome?_release_of_held ht
  running hp := by
    -- somebody keeps a ticket, so this was not the last one
    have hpos := List.length_pos_of_mem ht
    have hne : (w.list.release k).tickets ≠ 0 := by
      rw [h.accounts.release.tickets_eq]
      exact Nat.ne_of_gt hpos
    simp only [UnlockWatch.release, if_neg hne]
    exact hp

theorem Serves.undisturbed_releaseAll {ts : List Ticket} (h : w.Serves freed (ts ++ held) n)
    (ht : t ∈ held) : Undisturbed w (w.releaseAll ts) t := by
  induction ts generalizing w with
  | nil => exact .refl w t
  | cons k ts ih =>
      have hfirst := h.undisturbed_release (List.mem_append_right ts ht)
      exact hfirst.trans (ih h.release)

theorem Serves.grows_releaseAll {ts : List Ticket} (h : w.Serves freed (ts ++ held) n) :
    w.list.Grows (w.releaseAll ts).list := by
  induction ts generalizing w with
  | nil => exact .refl _
  | cons t ts ih => exact (h.accounts.grows_release t).trans (ih h.release)

theorem Serves.undisturbed_leave (h : w.Serves freed held (j.openings + n)) (t : Ticket) :
    Undisturbed w (w.leave j) t where
  outcome?_eq := rfl
  running hp := by
    cases j with
    | waiting => exact hp
    | opening o =>
        rw [h.tracks.starting_of_opening.1] at hp
        cases hp

/-! ## Joining -/

theorem join_eq_some (h : w.join now freed s j = some (r, w', s')) :
    j.step now freed.streamEnd w.monitor s = some (r, w'.monitor, s') ∧ w'.list = w.list := by
  simp only [join, Option.map_eq_some_iff, Prod.mk.injEq] at h
  obtain ⟨⟨r, m, s⟩, hstep, rfl, rfl, rfl⟩ := h
  exact ⟨hstep, rfl⟩

theorem join_eq_none_iff : w.join now freed s j = none ↔
    j.step now freed.streamEnd w.monitor s = none := by
  simp only [join, Option.map_eq_none_iff]

theorem Serves.join (h : w.Serves freed held (j.openings + n))
    (hj : w.join now freed s j = some (r, w', s')) : w'.Serves freed held (r.openings + n) := by
  obtain ⟨hstep, hlist⟩ := join_eq_some hj
  refine ⟨hlist ▸ h.accounts, h.tracks.step hstep, ?_⟩
  intro place hp
  rcases Joining.step_cases hstep with ⟨-, -, -, hm, -⟩ | ⟨-, -, -, hm, -⟩ |
    ⟨_, _, _, -, -, -, -, hm, -⟩ | ⟨_, _, -, -, -, -, -, hm, -⟩
  · rw [hm] at hp
    cases hp
  · rw [hm] at hp
    exact h.place_le hp
  · rw [hm] at hp
    cases hp
  · rw [hm] at hp
    cases hp
    exact Nat.le_refl _

theorem Serves.undisturbed_join (h : w.Serves freed held (j.openings + n))
    (hj : w.join now freed s j = some (r, w', s')) (t : Ticket) : Undisturbed w w' t := by
  obtain ⟨hstep, hlist⟩ := join_eq_some hj
  refine ⟨by rw [hlist], ?_⟩
  intro place hp
  rcases Joining.step_cases hstep with ⟨-, hidle, -⟩ | ⟨-, -, -, hm, -⟩ | ⟨o, _, _, rfl, -⟩ |
    ⟨o, _, rfl, -⟩
  · rw [hidle] at hp
    cases hp
  · rwa [hm]
  · rw [h.tracks.starting_of_opening.1] at hp
    cases hp
  · rw [h.tracks.starting_of_opening.1] at hp
    cases hp

/-- Whoever has joined is assured of every ticket. -/
theorem assured_of_join (hj : w.join now freed s j = some (.running, w', s')) (t : Ticket) :
    w'.Assured t :=
  fun _ => Joining.isRunning_of_step (join_eq_some hj).1

/-! ## Reading the stream -/

theorem reading?_of_running (freed : Channel (List String)) {place : Nat}
    (hp : w.monitor.phase = .running place) :
    w.reading? freed = some (freed.read place).1 := by
  rw [reading?, hp]

/-- All that reading a notice can do. -/
theorem pump_cases (h : w.pump freed = some w') :
    (∃ place batch, w.monitor.phase = .running place ∧ freed.log[place]? = some batch ∧
      w.reading? freed = some (.item batch) ∧
      w' = { list := w.list.settleAll true batch,
             monitor := { w.monitor with phase := .running (place + 1) } }) ∨
    (∃ place missed, w.monitor.phase = .running place ∧ place < freed.oldest ∧
      w.reading? freed = some (.lagged missed) ∧
      w' = { list := w.list.settleAll true w.list.pendingIds,
             monitor := { w.monitor with phase := .running freed.oldest } }) ∨
    (∃ place, w.monitor.phase = .running place ∧ freed.log[place]? = none ∧
      w.reading? freed = some .closed ∧ w' = w.shutdown) := by
  unfold pump at h
  split at h
  · next place hp =>
      have hread := reading?_of_running freed hp
      rcases freed.read_cases place with ⟨hlt, hr⟩ | ⟨batch, -, hb, hr⟩ | ⟨-, hb, -, hr⟩ |
        ⟨-, -, -, hr⟩
      · rw [hr] at h hread
        cases h
        exact .inr (.inl ⟨place, _, hp, hlt, hread, rfl⟩)
      · rw [hr] at h hread
        cases h
        exact .inl ⟨place, batch, hp, hb, hread, rfl⟩
      · rw [hr] at h hread
        cases h
        exact .inr (.inr ⟨place, hp, hb, hread, rfl⟩)
      · rw [hr] at h
        cases h
  · cases h

/-- A monitor that can read nothing has read everything that there is. -/
theorem pump_eq_none_of_running {place : Nat} (h : w.pump freed = none)
    (hp : w.monitor.phase = .running place) :
    freed.oldest ≤ place ∧ freed.log[place]? = none ∧ freed.isClosed = false := by
  simp only [pump, hp] at h
  rcases freed.read_cases place with ⟨-, hr⟩ | ⟨_, -, -, hr⟩ | ⟨-, -, -, hr⟩ |
    ⟨hle, hb, hc, -⟩
  · rw [hr] at h
    cases h
  · rw [hr] at h
    cases h
  · rw [hr] at h
    cases h
  · exact ⟨hle, hb, hc⟩

/-- A monitor that expects a notice can read. -/
theorem not_expects_of_pump_eq_none (h : w.pump freed = none) : ¬ w.Expects freed id := by
  rintro ⟨place, k, batch, hp, hle, hk, -⟩
  obtain ⟨-, hnone, -⟩ := pump_eq_none_of_running h hp
  rw [Array.getElem?_eq_none_iff] at hnone
  have hlt := (Array.getElem?_eq_some_iff.mp hk).1
  omega

theorem readings_le (w : UnlockWatch) (freed : Channel (List String)) :
    w.readings freed ≤ freed.sent + 1 := by
  unfold readings
  split
  · omega
  · exact Nat.zero_le _

theorem readings_lt_of_pump (h : w.pump freed = some w') :
    w'.readings freed < w.readings freed := by
  rcases pump_cases h with ⟨place, batch, hp, hb, -, rfl⟩ | ⟨place, _, hp, hlt, -, rfl⟩ |
    ⟨place, hp, -, -, rfl⟩
  · have hsent : place < freed.sent := (Array.getElem?_eq_some_iff.mp hb).1
    simp only [readings, hp]
    omega
  · have hle : freed.oldest ≤ freed.sent := Nat.sub_le _ _
    simp only [readings, hp]
    omega
  · simp only [readings, UnlockWatch.shutdown, Monitor.stop, hp]
    exact Nat.succ_pos _

theorem Serves.pump (h : w.Serves freed held n) (hp : w.pump freed = some w') :
    w'.Serves freed held n := by
  rcases pump_cases hp with ⟨place, batch, hrun, hb, -, rfl⟩ | ⟨place, _, hrun, -, -, rfl⟩ |
    ⟨_, -, -, -, rfl⟩
  · refine ⟨h.accounts.settleAll true batch, h.tracks.advance hrun _, ?_⟩
    intro next hnext
    cases hnext
    exact (Array.getElem?_eq_some_iff.mp hb).1
  · refine ⟨h.accounts.settleAll true _, h.tracks.advance hrun _, ?_⟩
    intro next hnext
    cases hnext
    exact Nat.sub_le _ _
  · exact h.shutdown

theorem Serves.grows_pump (h : w.Serves freed held n) (hp : w.pump freed = some w') :
    w.list.Grows w'.list := by
  rcases pump_cases hp with ⟨_, _, -, -, -, rfl⟩ | ⟨_, _, -, -, -, rfl⟩ | ⟨_, -, -, -, rfl⟩ <;>
    exact h.accounts.grows_settleAll _ _

theorem Serves.outcome?_shutdown (h : w.Serves freed held n) (ht : t ∈ held) :
    w.shutdown.list.outcome? t = some ((w.list.outcome? t).getD false) :=
  h.accounts.outcome?_settle_pendingIds ht false

/-- The monitor settles a ticket only with true for a notice that says so, and with
false for the end of the stream. -/
theorem Serves.outcome?_pump (h : w.Serves freed held n) (ht : t ∈ held)
    (hp : w.pump freed = some w') :
    w'.list.outcome? t = w.list.outcome? t ∨
    w.list.outcome? t = none ∧ w'.list.outcome? t = some true ∧ w.Hears freed t.objectId ∨
    w.list.outcome? t = none ∧ w'.list.outcome? t = some false ∧
      w.reading? freed = some .closed := by
  rcases pump_cases hp with ⟨place, batch, -, -, hread, rfl⟩ | ⟨_, missed, -, -, hread, rfl⟩ |
    ⟨_, -, -, hread, rfl⟩
  · have ho := h.accounts.outcome?_settleAll_of_held ht true batch
    by_cases hc : w.list.outcome? t = none ∧ t.objectId ∈ batch
    · rw [if_pos hc] at ho
      exact .inr (.inl ⟨hc.1, ho, .inl ⟨batch, hread, hc.2⟩⟩)
    · rw [if_neg hc] at ho
      exact .inl ho
  · have ho := h.accounts.outcome?_settle_pendingIds ht true
    cases hw : w.list.outcome? t with
    | some b =>
        rw [hw] at ho
        exact .inl ho
    | none =>
        rw [hw] at ho
        exact .inr (.inl ⟨rfl, ho, .inr ⟨missed, hread⟩⟩)
  · have ho := h.outcome?_shutdown ht
    cases hw : w.list.outcome? t with
    | some b =>
        rw [hw] at ho
        exact .inl ho
    | none =>
        rw [hw] at ho
        exact .inr (.inr ⟨rfl, ho, hread⟩)

theorem Serves.assured_shutdown (h : w.Serves freed held n) (ht : t ∈ held) :
    w.shutdown.Assured t := by
  intro ho
  rw [h.outcome?_shutdown ht] at ho
  cases ho

theorem Serves.assured_pump (h : w.Serves freed held n) (ht : t ∈ held)
    (hp : w.pump freed = some w') : w'.Assured t := by
  rcases pump_cases hp with ⟨_, _, -, -, -, rfl⟩ | ⟨_, _, -, -, -, rfl⟩ | ⟨_, -, -, -, rfl⟩
  · exact fun _ => rfl
  · exact fun _ => rfl
  · exact h.assured_shutdown ht

/-- A ticket whose notice is yet to be read stays unsettled only until it is read. -/
theorem Serves.expects_pump (h : w.Serves freed held n) (ht : t ∈ held)
    (hp : w.pump freed = some w') (he : w.Expects freed t.objectId)
    (ho : w'.list.outcome? t = none) : w'.Expects freed t.objectId := by
  have hw := (h.grows_pump hp).outcome?_eq_none ho
  obtain ⟨start, k, batch, hrun, hle, hk, hmem⟩ := he
  rcases pump_cases hp with ⟨place, ids, hplace, hids, -, rfl⟩ | ⟨_, _, -, -, -, rfl⟩ |
    ⟨_, -, -, -, rfl⟩
  · rw [hrun] at hplace
    cases hplace
    refine ⟨start + 1, k, batch, rfl, ?_, hk, hmem⟩
    by_contra hlt
    -- otherwise this very batch settles the ticket
    have hEq : k = start := by omega
    rw [hEq, hids] at hk
    cases hk
    have hset := h.accounts.outcome?_settleAll_of_held ht true batch
    rw [if_pos ⟨hw, hmem⟩] at hset
    rw [hset] at ho
    cases ho
  · rw [h.accounts.outcome?_settle_pendingIds ht true] at ho
    cases ho
  · rw [h.outcome?_shutdown ht] at ho
    cases ho

/-- While a notice is yet to be read, the stream does not end. -/
theorem Expects.reading?_ne_closed (h : w.Expects freed id) :
    w.reading? freed ≠ some .closed := by
  obtain ⟨place, k, batch, hp, hle, hk, -⟩ := h
  have hlt := (Array.getElem?_eq_some_iff.mp hk).1
  rw [reading?_of_running freed hp]
  rcases freed.read_cases place with ⟨-, hr⟩ | ⟨_, -, -, hr⟩ | ⟨-, hb, -, -⟩ | ⟨-, -, -, hr⟩
  · simp [hr]
  · simp [hr]
  · rw [Array.getElem?_eq_none_iff] at hb
    omega
  · simp [hr]

end UnlockWatch

end LeasedLocks
