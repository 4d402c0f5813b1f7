import LeasedLocks.Proofs.Runs

/-!
# How clients are set up

Calls and tasks make use of a client, but they do not change how it is set up: its
settings and its way to the authority stay what they are (`Client.Lasts`), and what is
to happen to its messages is used up in order.
-/

namespace LeasedLocks

/-- The same client later on. -/
structure Client.Lasts (c c' : Client) : Prop where
  settings_eq : c'.settings = c.settings
  base_eq : c'.route.base = c.route.base
  lockScript_isSuffix : c'.route.lockScript <:+ c.route.lockScript

/-- The same client later on, with nothing changed from outside. -/
structure Client.Keeps (c c' : Client) : Prop extends Client.Lasts c c' where
  own_eq : c'.own = c.own
  plan_eq : c'.source.plan = c.source.plan

variable {client client' client'' : Client} {l l' : Link} {c : Clock} {t : TreeWait}
  {r : TreeProgress} {now : Nat} {s s' : CallState} {j : Joining} {joined : Joined}

namespace Client

theorem Lasts.refl (client : Client) : Lasts client client := ⟨rfl, rfl, List.suffix_rfl⟩

theorem Lasts.trans (h : Lasts client client') (h' : Lasts client' client'') :
    Lasts client client'' :=
  ⟨h'.settings_eq.trans h.settings_eq, h'.base_eq.trans h.base_eq,
    h'.lockScript_isSuffix.trans h.lockScript_isSuffix⟩

/-- A script that is used up stays so. -/
theorem Lasts.lockScript_eq_nil (h : Lasts client client')
    (hnil : client.route.lockScript = []) : client'.route.lockScript = [] :=
  List.suffix_nil.mp (hnil ▸ h.lockScript_isSuffix)

theorem Keeps.refl (client : Client) : Keeps client client := ⟨.refl client, rfl, rfl⟩

theorem Keeps.trans (h : Keeps client client') (h' : Keeps client' client'') :
    Keeps client client'' :=
  ⟨h.toLasts.trans h'.toLasts, h'.own_eq.trans h.own_eq, h'.plan_eq.trans h.plan_eq⟩

/-- Whatever changes of a client besides, it is set up as before. -/
theorem Keeps.of_eq (hsettings : client'.settings = client.settings)
    (hbase : client'.route.base = client.route.base)
    (hscript : client'.route.lockScript = client.route.lockScript)
    (hown : client'.own = client.own) (hplan : client'.source.plan = client.source.plan) :
    Keeps client client' :=
  ⟨⟨hsettings, hbase, hscript ▸ List.suffix_rfl⟩, hown, hplan⟩

theorem keeps_sendRequests (client : Client) (rs : List Request) (now : Nat) :
    Keeps client (client.sendRequests rs now).2 :=
  ⟨⟨rfl, rfl, List.tail_suffix _⟩, rfl, rfl⟩

end Client

namespace Link

theorem keeps_leave (t : TreeWait) (l : Link) : l.client.Keeps (t.leave l).client :=
  .of_eq rfl rfl rfl rfl rfl

theorem keeps_leaveAll (ts : List TreeWait) (l : Link) :
    l.client.Keeps (ts.foldl (fun l t => t.leave l) l).client := by
  induction ts generalizing l with
  | nil => exact .refl _
  | cons t ts ih => exact (keeps_leave t l).trans (ih _)

theorem keeps_joinUnlocks (h : l.joinUnlocks now j = some (joined, l')) :
    l.client.Keeps l'.client := by
  obtain ⟨unlocks, source, hstep, rfl⟩ := joinUnlocks_eq_some h
  exact .of_eq rfl rfl rfl rfl (Joining.plan_of_step (UnlockWatch.join_eq_some hstep).1)

theorem keeps_ask {rs : List Request} {x : Exchange (List Reply)} {y : Exchanged (List Reply)}
    (h : l.ask c rs x = some (y, l')) : l.client.Keeps l'.client :=
  (ask_eq_some h).1 ▸ .refl _

theorem keeps_joinPriorities (h : l.joinPriorities now j = some (joined, l')) :
    l.client.Keeps l'.client := by
  obtain ⟨⟨y, priorities, source⟩, hjoin, hlink⟩ := Option.map_eq_some_iff.mp h
  obtain ⟨⟨z, monitor, source⟩, hstep, hwatch⟩ := Option.map_eq_some_iff.mp hjoin
  cases hlink
  refine .of_eq rfl rfl rfl rfl ?_
  rw [← Joining.plan_of_step hstep]
  cases z <;> cases hwatch <;> rfl

end Link

theorem TreeWait.keeps_of_steps (h : t.Steps c l r l') : l.client.Keeps l'.client := by
  cases h with
  | ends => exact Link.keeps_leave t l
  | arms _ => exact .of_eq rfl rfl rfl rfl rfl
  | joins _ hj => exact Link.keeps_joinUnlocks hj
  | joined _ hj => exact (Link.keeps_joinUnlocks hj).trans (Client.keeps_sendRequests _ _ _)
  | failed _ hj => exact (Link.keeps_joinUnlocks hj).trans (Link.keeps_leave _ _)
  | asks _ ha => exact Link.keeps_ask ha
  | settles _ ha => exact (Link.keeps_ask ha).trans (Link.keeps_leave _ _)
  | parks _ ha _ => exact (Link.keeps_ask ha).trans (.of_eq rfl rfl rfl rfl rfl)
  | wakes _ _ => exact .refl _

namespace CallState

theorem keeps_of_step (h : s.step c l = some (s', l')) : l.client.Keeps l'.client := by
  cases steps_of_step h with
  | asks ha | hears ha | crashes ha => exact Link.keeps_ask ha
  | finishes _ _ | passes _ | released _ => exact .refl _
  | joins hj | joined hj => exact Link.keeps_joinPriorities hj

theorem keeps_of_stepBranch {k : Nat} (h : s.stepBranch c k l = some (s', l')) :
    l.client.Keeps l'.client := by
  obtain ⟨t, r, kept, -, -, hsteps⟩ := does_of_stepBranch h
  exact TreeWait.keeps_of_steps hsteps

theorem keeps_cancel (s : CallState) (l : Link) : l.client.Keeps (s.cancel l).2.client := by
  cases s with
  | locking requests wait stage =>
      cases stage with
      | asking x => exact .refl _
      | waiting started limit replies branches failure => exact Link.keeps_leaveAll _ l
  | releasing releases x => exact .refl _
  | joining j => exact .of_eq rfl rfl rfl rfl rfl
  | returned moment result => exact .refl _
  | cancelled => exact .refl _

theorem keeps_lock (requests : List Request) (wait : Option Duration) (now : Nat) (l : Link) :
    l.client.Keeps (CallState.lock requests wait now l).2.client := by
  unfold CallState.lock
  split
  · exact .refl _
  · split
    · exact .refl _
    · exact Client.keeps_sendRequests _ _ _

theorem keeps_release (releases : List Release) (now : Nat) (l : Link) :
    l.client.Keeps (CallState.release releases now l).2.client := by
  unfold CallState.release
  split
  · exact .refl _
  · split
    · exact .refl _
    · exact .of_eq rfl rfl rfl rfl rfl

theorem keeps_listen (thresholds : List Threshold) (now : Nat) (l : Link) :
    l.client.Keeps (CallState.listen thresholds now l).2.client := by
  unfold CallState.listen
  split
  · exact .refl _
  · next j _ _ =>
      cases j with
      | none => exact .of_eq rfl rfl rfl rfl rfl
      | some j => exact .of_eq rfl rfl rfl rfl rfl

end CallState

namespace World

/-- Every client of the first world is still there in the second. -/
def KeepsClients (w w' : World) : Prop :=
  ∀ i l, w.link? i = some l → ∃ l', w'.link? i = some l' ∧ l.client.Lasts l'.client

variable {w w' w'' : World} {e : Event} {es : List Event} {i k : Nat}

theorem KeepsClients.trans (h : KeepsClients w w') (h' : KeepsClients w' w'') :
    KeepsClients w w'' := by
  intro i l hl
  obtain ⟨l', hl', hlasts⟩ := h i l hl
  obtain ⟨l'', hl'', hlasts'⟩ := h' i l' hl'
  exact ⟨l'', hl'', hlasts.trans hlasts'⟩

theorem keepsClients_of_clients_eq (h : w'.clients = w.clients) : KeepsClients w w' := by
  intro i l hl
  obtain ⟨hi, -⟩ := link?_eq_some_iff.mp hl
  exact ⟨⟨l.client, w'.authority⟩, link?_eq_some_iff.mpr ⟨h ▸ hi, rfl⟩, .refl _⟩

/-- The client at one place changes. -/
theorem keepsClients_of_set (hl : w.link? i = some l) (h : w'.clients = w.clients.set i client)
    (hlasts : l.client.Lasts client) : KeepsClients w w' := by
  intro j m hm
  obtain ⟨hj, -⟩ := link?_eq_some_iff.mp hm
  by_cases hji : j = i
  · subst hji
    rw [hl] at hm
    cases hm
    refine ⟨⟨client, w'.authority⟩, link?_eq_some_iff.mpr ⟨?_, rfl⟩, hlasts⟩
    rw [h, List.getElem?_set_self (lt_length_of_link? hl)]
  · refine ⟨⟨m.client, w'.authority⟩, link?_eq_some_iff.mpr ⟨?_, rfl⟩, .refl _⟩
    rw [h, List.getElem?_set_ne (Ne.symm hji), hj]

theorem keepsClients_start {f : Nat → Link → CallState × Link}
    (hf : ∀ l : Link, l.client.Keeps (f w.now l).2.client) : KeepsClients w (w.start i f) := by
  unfold start
  cases hl : w.link? i with
  | none => exact keepsClients_of_clients_eq rfl
  | some l => exact keepsClients_of_set hl rfl (hf l).toLasts

theorem keepsClients_alter {f : Client → Client} (hf : ∀ client : Client, client.Lasts (f client)) :
    KeepsClients w (w.alter i f) := by
  intro j m hm
  obtain ⟨hj, -⟩ := link?_eq_some_iff.mp hm
  by_cases hji : i = j
  · refine ⟨⟨f m.client, w.authority⟩, link?_eq_some_iff.mpr ⟨?_, rfl⟩, hf _⟩
    change (w.clients.modify i f)[j]? = _
    rw [List.getElem?_modify, hj]
    exact congrArg some (if_pos hji)
  · refine ⟨⟨m.client, w.authority⟩, link?_eq_some_iff.mpr ⟨?_, rfl⟩, .refl _⟩
    change (w.clients.modify i f)[j]? = _
    rw [List.getElem?_modify, hj]
    exact congrArg some (if_neg hji)

theorem keepsClients_stepCall {f : CallState → Link → Option (CallState × Link)}
    (hf : ∀ {s s' : CallState} {l l' : Link}, f s l = some (s', l') →
      l.client.Keeps l'.client) (h : w.stepCall k f = some w') : KeepsClients w w' := by
  obtain ⟨call, l, state, l', -, hl, hfs, rfl⟩ := stepCall_eq_some h
  exact keepsClients_of_set hl rfl (hf hfs).toLasts

theorem keepsClients_of_step {task : Task} (h : w.step task = some w') : KeepsClients w w' := by
  cases task with
  | call k => exact keepsClients_stepCall (f := CallState.step w.clock) CallState.keeps_of_step h
  | branch k b =>
      exact keepsClients_stepCall (f := CallState.stepBranch w.clock b)
        CallState.keeps_of_stepBranch h
  | freedPump i =>
      obtain ⟨l, hl, h⟩ := Option.bind_eq_some_iff.mp h
      obtain ⟨unlocks, -, rfl⟩ := Option.map_eq_some_iff.mp h
      exact keepsClients_of_set hl rfl ⟨rfl, rfl, List.suffix_rfl⟩
  | requestPump i =>
      obtain ⟨l, hl, h⟩ := Option.bind_eq_some_iff.mp h
      obtain ⟨priorities, -, rfl⟩ := Option.map_eq_some_iff.mp h
      exact keepsClients_of_set hl rfl ⟨rfl, rfl, List.suffix_rfl⟩
  | sweeper k =>
      simp only [step] at h
      split at h
      · cases h
      · obtain ⟨-, h⟩ := Option.ite_none_right_eq_some.mp h
        cases h
        exact keepsClients_of_clients_eq rfl

/-- Whatever happens, clients stay the ones that they are. -/
theorem keepsClients_of_next (h : w.next e = some w') : KeepsClients w w' := by
  cases e with
  | lock i requests wait =>
      cases h
      exact keepsClients_start (CallState.keeps_lock requests wait w.now)
  | release i releases =>
      cases h
      exact keepsClients_start (CallState.keeps_release releases w.now)
  | listen i thresholds =>
      cases h
      exact keepsClients_start (CallState.keeps_listen thresholds w.now)
  | cancel k =>
      cases h
      unfold cancel
      cases hs : w.stepCall k fun s l => some (s.cancel l) with
      | none => exact keepsClients_of_clients_eq rfl
      | some w' =>
          refine keepsClients_stepCall ?_ hs
          intro s s' l l' hf
          have hkeeps := CallState.keeps_cancel s l
          rwa [Option.some.inj hf] at hkeeps
  | stopListening _ _ | shutdown _ | planOpenings _ _ | closeOwn _ | reopenOwn _
  | announceOwn _ _ =>
      cases h
      exact keepsClients_alter fun _ => ⟨rfl, rfl, List.suffix_rfl⟩
  | visit _ | sweepEvery _ =>
      cases h
      exact keepsClients_of_clients_eq rfl
  | wait moment calendar =>
      obtain ⟨-, h⟩ := Option.ite_none_right_eq_some.mp h
      cases h
      exact keepsClients_of_clients_eq rfl
  | turn task => exact keepsClients_of_step h

theorem keepsClients_of_run (h : Run w es w') : KeepsClients w w' := by
  induction h with
  | nil => exact keepsClients_of_clients_eq rfl
  | cons hn _ ih => exact (keepsClients_of_next hn).trans ih

/-- A client that begins a call stays the one that it is. -/
theorem lasts_lock {l₀ : Link} {requests : List Request} {wait : Option Duration}
    (hl : w.link? i = some l) (hl₀ : (w.lock i requests wait).link? i = some l₀) :
    l.client.Lasts l₀.client := by
  have hlock : w.next (.lock i requests wait) = some (w.lock i requests wait) := rfl
  obtain ⟨m, hm, hlasts⟩ := keepsClients_of_next hlock i l hl
  rw [hl₀] at hm
  cases hm
  exact hlasts

end World

end LeasedLocks
