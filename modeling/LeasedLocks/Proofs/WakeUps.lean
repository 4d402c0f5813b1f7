import LeasedLocks.Proofs.Watching

/-!
# No wake-up is lost

Clients that talk to the authority directly never sleep over a tree that is free:
at rest, whoever waits for a tree waits for an object of it that is locked.
-/

namespace LeasedLocks.World

/-- Clients that talk to the authority directly and have not done anything yet. -/
structure IsFresh (w : World) : Prop where
  calls_eq : w.calls = []
  clients : ∀ client ∈ w.clients, client.IsLocal
  unlocks_eq : ∀ client ∈ w.clients, client.unlocks = {}

/-- Every wait can rely on what its client watches. -/
def Guarded (w : World) : Prop :=
  ∀ {i : Nat} {l : Link}, w.link? i = some l → ∀ t ∈ w.waits i, t.Guarded l w.now

/-- The invariant of all worlds whose clients talk to the authority directly. -/
structure Sound (w : World) : Prop where
  serves : Serves w
  isLocal : Local w
  guarded : Guarded w

variable {w w' : World} {e : Event} {es : List Event} {i k : Nat} {l : Link} {t : TreeWait}

theorem Guarded.clientsStep (hg : Guarded w) (hs : Serves w) (hw : Local w) (hw' : Local w')
    (h : ClientsStep w w') : Guarded w' := by
  intro i m hm t ht
  obtain ⟨l, hl⟩ := exists_link?_of_clientsStep h hm
  obtain ⟨l', old, new, rest, hl', hold, hnew, hd⟩ := h.links hl
  rw [hm] at hl'
  cases hl'
  have hall := TreeWait.guarded_of_does (fun t ht => hg hl t (hold.mem_iff.mpr ht))
    ((hs hl).perm hold) (isLocal_of_link? hw hl) hd
  exact (hall t (hnew.mem_iff.mp ht)).onward ((hs.clientsStep h) hm)
    (isLocal_of_link? hw' hm).own_eq (.refl m) h.now_le fun k _ => .refl _ k

/-- One event, unless it makes an opening wait. -/
theorem Sound.next (hw : Sound w) (h : w.next e = some w')
    (he : ∀ i plan, e ≠ .planOpenings i plan) : Sound w' := by
  have hclientsStep := clientsStep_of_next h
  have hlocal := hw.isLocal.next h he
  constructor
  case serves => exact Serves.clientsStep hw.serves hclientsStep
  case isLocal => exact hlocal
  case guarded => exact Guarded.clientsStep hw.guarded hw.serves hw.isLocal hlocal hclientsStep

theorem Sound.run (hw : Sound w) (h : Run w es w')
    (hes : ∀ e ∈ es, ∀ i plan, e ≠ .planOpenings i plan) : Sound w' := by
  induction h with
  | nil => exact hw
  | cons hn _ ih =>
      apply ih (hw.next hn (hes _ List.mem_cons_self))
      exact fun e he => hes e (List.mem_cons_of_mem _ he)

theorem IsFresh.isNew (hw : IsFresh w) : IsNew w := ⟨hw.calls_eq, hw.unlocks_eq⟩

theorem sound_of_isFresh (hw : IsFresh w) : Sound w := by
  constructor
  case serves => exact serves_of_isNew hw.isNew
  case isLocal =>
    refine ⟨hw.clients, ?_⟩
    intro call hc
    rw [hw.calls_eq] at hc
    cases hc
  case guarded =>
    intro i l _ t ht
    rw [waits_of_isNew hw.isNew] at ht
    cases ht

/-- At rest, every wait of a client is blocked. -/
theorem blocked_of_quiescent (hq : system.Quiescent w) (hl : w.link? i = some l)
    (ht : t ∈ w.waits i) : ∃ deadline, t.step w.clock deadline l = none := by
  obtain ⟨requests, wait, started, limit, replies, branches, failure, hcall, b, hb, hwait⟩ :=
    exists_call_of_mem_waits ht
  obtain ⟨k, hk⟩ := List.mem_iff_getElem?.mp hcall
  obtain ⟨n, hn⟩ := List.mem_iff_getElem?.mp hb
  obtain ⟨index, wait⟩ := b
  cases hwait
  have hblocked := stepCall_eq_none hk hl (hq (.branch k n))
  simp only [CallState.stepBranch, hn] at hblocked
  exact ⟨started + limit.ceilMillis, Option.map_eq_none_iff.mp hblocked⟩

/-- Clients that talk to the authority directly never wait for a tree that is free:
when all tasks are at rest, every call that asks for locks waits for trees with an
object that is locked. -/
theorem exists_isLocked_of_wait {w₀ : World} (hw₀ : IsFresh w₀) (h : Run w₀ es w)
    (hes : ∀ e ∈ es, ∀ i plan, e ≠ .planOpenings i plan) (hq : system.Quiescent w) :
    ∀ {client : Nat} {requests : List Request} {wait : Option Duration} {stage : LockStage},
      ⟨client, .locking requests wait stage⟩ ∈ w.calls →
        ∃ started limit replies branches failure,
          stage = .waiting started limit replies branches failure ∧
          ∀ b ∈ branches, ∀ t, b.wait = some t → requests[b.index]? = some t.request ∧
            ∃ id ∈ t.request.objectIds, w.authority.isLocked id := by
  intro client requests wait stage hcall
  obtain ⟨hs, hw, hg⟩ := (sound_of_isFresh hw₀).run h hes
  obtain ⟨hlt, hp⟩ := hw.calls _ hcall
  obtain ⟨l, hl⟩ := exists_link?_of_lt hlt
  cases stage with
  | asking x =>
      -- a message is answered at once, so the call is not at rest
      obtain ⟨k, hk⟩ := List.mem_iff_getElem?.mp hcall
      have hblocked := stepCall_eq_none hk hl (hq (.call k))
      have hask : l.ask w.clock requests x = none := Option.map_eq_none_iff.mp hblocked
      exact absurd hask (Link.ask_ne_none_of_prompt hp)
  | waiting started limit replies branches failure =>
      refine ⟨started, limit, replies, branches, failure, rfl, ?_⟩
      intro b hb t hwait
      have hpump : l.client.unlocks.pump l.freed = none := by
        have hstep := hq (.freedPump client)
        change (w.link? client).bind _ = none at hstep
        rw [hl] at hstep
        exact Option.map_eq_none_iff.mp hstep
      have ht : t ∈ w.waits client := by
        refine List.mem_flatMap.mpr ⟨_, hcall, ?_⟩
        rw [waitsAt, if_pos rfl]
        exact List.mem_filterMap.mpr ⟨b, hb, hwait⟩
      have hlocked := TreeWait.exists_isLocked_of_blocked (hs hl) (hg hl)
        (fun u hu => blocked_of_quiescent hq hl hu) hpump ht
      rw [(link?_eq_some_iff.mp hl).2] at hlocked
      exact ⟨hp b hb t hwait, hlocked⟩

/-- One client around an authority that keeps a single notice. -/
def ofOneClient : World where
  calendar := 0
  authority := { settings := {}, table := ∅, bulletin := ⟨{ capacity := 1 }, { capacity := 1 }⟩ }
  clients := [{}]

/-- Somebody holds an object that a client waits for, and gives it back only to take it
again between the reply to the client and the moment at which the client parks. -/
def snatched : List Event :=
  [.visit (.request (Request.of "x") 0), .lock 0 [Request.of "x"] (some (.ofSeconds 5)),
    .turn (.call 0), .turn (.call 0), .turn (.branch 0 0), .turn (.branch 0 0),
    .turn (.branch 0 0), .turn (.branch 0 0), .visit (.release "x" false),
    .visit (.request (Request.of "x") 0), .turn (.branch 0 0), .turn (.freedPump 0)] ++
    List.replicate 5 (.turn (.branch 0 0))

theorem waits_for_snatched : ∃ w t, Run ofOneClient snatched w ∧ system.Quiescent w ∧
    t ∈ w.waits 0 ∧ ∃ id ∈ t.request.objectIds, w.authority.isLocked id := by
  have hrest : (ofOneClient.follow snatched).map
      (fun w => (system.ready w, (w.waits 0).isEmpty)) = some ([], false) := by
    decide +kernel
  obtain ⟨w, hw, hrest⟩ := Option.map_eq_some_iff.mp hrest
  obtain ⟨hready, hwaits⟩ := Prod.mk.inj hrest
  have hrun := run_of_follow hw
  have hq := (quiescent_iff_ready_eq_nil w).mpr hready
  have hfresh : IsFresh ofOneClient := by
    refine ⟨rfl, ?_, ?_⟩ <;> intro client hc <;> obtain rfl := List.mem_singleton.mp hc
    · exact ⟨rfl, rfl, rfl⟩
    · rfl
  have hplans : ∀ e ∈ snatched, ∀ i plan, e ≠ .planOpenings i plan := by
    simp [snatched]
  obtain ⟨t, ht⟩ := List.exists_mem_of_ne_nil _ (List.isEmpty_eq_false_iff.mp hwaits)
  obtain ⟨_, _, _, _, _, branches, _, hcall, b, hb, hwait⟩ := exists_call_of_mem_waits ht
  obtain ⟨_, _, _, _, _, hstage, hlocked⟩ :=
    exists_isLocked_of_wait hfresh hrun hplans hq hcall
  cases hstage
  exact ⟨w, t, hrun, hq, ht, (hlocked b hb t hwait).2⟩

end LeasedLocks.World
