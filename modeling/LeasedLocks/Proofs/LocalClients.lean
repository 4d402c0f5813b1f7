import LeasedLocks.Proofs.Clients

/-!
# Clients that talk to the authority directly

A client that follows the bulletin of the authority and asks it without a detour
keeps doing so, and the messages of its calls are never on their way for long.
-/

namespace LeasedLocks

/-- The client talks to the authority directly: it follows the bulletin of the
authority, and neither its messages nor the opening of a stream take any time. -/
structure Client.IsLocal (c : Client) : Prop where
  own_eq : c.own = none
  script_eq : c.route.lockScript = []
  plan_eq : c.source.plan = {}

/-- The message of a call, if it is on its way, takes no time, and every wait is for
the tree at its place among the requests. -/
def CallState.InOrder (now : Nat) : CallState → Prop
  | locking _ _ (.asking x) => x.Prompt now
  | locking requests _ (.waiting _ _ _ branches _) =>
    ∀ b ∈ branches, ∀ t, b.wait = some t → requests[b.index]? = some t.request
  | _ => True

variable {l l' : Link} {c : Clock} {t : TreeWait} {r : TreeProgress} {now now' : Nat}
  {s s' : CallState} {client : Client}

/-- A client that nobody changes from outside goes on talking to the authority directly. -/
theorem Client.IsLocal.keeps (h : client.IsLocal) {client' : Client}
    (hk : client.Keeps client') : client'.IsLocal :=
  ⟨hk.own_eq.trans h.own_eq, hk.lockScript_eq_nil h.script_eq, hk.plan_eq.trans h.plan_eq⟩

namespace CallState

theorem InOrder.mono (h : s.InOrder now) (hle : now ≤ now') : s.InOrder now' := by
  unfold InOrder at h ⊢
  split
  · exact Exchange.Prompt.mono h hle
  · exact h
  · trivial

theorem getElem?_of_mem_branchesOf {requests : List Request} {replies : List Reply}
    {b : Branch} (hb : b ∈ branchesOf requests replies) (hwait : b.wait = some t) :
    requests[b.index]? = some t.request := by
  obtain ⟨⟨⟨r, reply⟩, index⟩, hx, rfl⟩ := List.mem_map.mp hb
  cases hwait
  have hzip := List.mem_zipIdx_iff_getElem?.mp (List.mem_filter.mp hx).1
  exact (List.getElem?_zip_eq_some.mp hzip).1

theorem inOrder_answered (requests : List Request) (wait : Option Duration) (now : Nat)
    (answer : Except Fault (List Reply)) : (answered requests wait now answer).InOrder now := by
  rcases answered_cases requests wait now answer with
    ⟨e, heq⟩ | ⟨replies, -, -, heq | ⟨d, -, -, heq⟩⟩
  · rw [heq]
    trivial
  · rw [heq]
    trivial
  · rw [heq]
    exact fun b hb t hwait => getElem?_of_mem_branchesOf hb hwait

/-- A call of a client that talks to the authority directly stays in order. -/
theorem InOrder.step (hp : s.InOrder c.now) (hs : s.step c l = some (s', l')) :
    s'.InOrder c.now := by
  cases steps_of_step hs with
  | asks ha =>
      obtain ⟨rfl, -⟩ := Exchange.Prompt.eq_of_notYet hp (Link.ask_eq_some ha).2.2
      exact Nat.le_refl c.now
  | @hears requests wait _ answer _ _ _ => exact inOrder_answered requests wait c.now answer
  | crashes _ | finishes _ _ | passes _ | released _ | joins _ | joined _ => trivial

theorem request_of_steps (h : t.Steps c l r l') : ∀ t' ∈ r.waits, t'.request = t.request := by
  cases h with
  | ends => exact fun _ h => nomatch h
  | failed _ _ => exact fun _ h => nomatch h
  | settles _ _ => exact fun _ h => nomatch h
  | arms _ => exact fun _ h => List.mem_singleton.mp h ▸ rfl
  | joins _ _ => exact fun _ h => List.mem_singleton.mp h ▸ rfl
  | joined _ _ => exact fun _ h => List.mem_singleton.mp h ▸ rfl
  | asks _ _ => exact fun _ h => List.mem_singleton.mp h ▸ rfl
  | parks _ _ _ => exact fun _ h => List.mem_singleton.mp h ▸ rfl
  | wakes _ _ => exact fun _ h => List.mem_singleton.mp h ▸ rfl

/-- A wait that goes on is for the tree that it was for. -/
theorem request_of_wait? {deadline : Nat} (h : t.step c deadline l = some (r, l')) :
    ∀ t', r.wait? = some t' → t'.request = t.request := by
  intro t' ht'
  apply request_of_steps (TreeWait.steps_of_step h)
  cases r with
  | goesOn u =>
      cases ht'
      exact List.mem_cons_self
  | ended result => cases ht'

/-- One of the branches goes on with its tree, or ends. -/
theorem inOrder_set {requests : List Request} {branches : List Branch} {k index : Nat}
    (hb : branches[k]? = some ⟨index, some t⟩)
    (hp : ∀ b ∈ branches, ∀ t, b.wait = some t → requests[b.index]? = some t.request)
    (wait : Option TreeWait)
    (hwait : ∀ t', wait = some t' → t'.request = t.request) :
    ∀ b ∈ branches.set k ⟨index, wait⟩, ∀ t', b.wait = some t' →
      requests[b.index]? = some t'.request := by
  intro b hmem t' ht'
  rcases List.mem_or_eq_of_mem_set hmem with hmem | rfl
  · exact hp b hmem t' ht'
  · rw [hwait t' ht']
    exact hp _ (List.mem_of_getElem? hb) t rfl

theorem InOrder.stepBranch {k : Nat} (hp : s.InOrder now)
    (hs : s.stepBranch c k l = some (s', l')) : s'.InOrder now := by
  obtain ⟨_, _, _, _, _, _, _, _, t, r, rfl, hb, hstep, rfl⟩ := stepBranch_eq_some hs
  exact inOrder_set hb hp r.wait? (request_of_wait? hstep)

theorem inOrder_cancel (now : Nat) (s : CallState) (l : Link) :
    (s.cancel l).1.InOrder now := by
  cases s with
  | locking requests wait stage => cases stage <;> trivial
  | releasing releases x => trivial
  | joining j => trivial
  | returned moment result => trivial
  | cancelled => trivial

theorem inOrder_lock (requests : List Request) (wait : Option Duration)
    (h : l.client.IsLocal) : (CallState.lock requests wait now l).1.InOrder now := by
  unfold CallState.lock
  split
  · trivial
  · split
    · trivial
    · change (Exchange.start (l.client.route.lockScript.head?.getD {})
        l.client.settings.requestTimeout now).Prompt now
      rw [h.script_eq]
      exact Exchange.prompt_start _ _

theorem inOrder_release (releases : List Release) (now : Nat) (l : Link) :
    (CallState.release releases now l).1.InOrder now := by
  unfold CallState.release
  split
  · trivial
  · split <;> trivial

theorem inOrder_listen (thresholds : List Threshold) (now : Nat) (l : Link) :
    (CallState.listen thresholds now l).1.InOrder now := by
  unfold CallState.listen
  split
  · trivial
  · next j _ _ => cases j <;> trivial

end CallState

namespace World

/-- All clients talk to the authority directly, and every call is made by one of them. -/
structure Local (w : World) : Prop where
  clients : ∀ client ∈ w.clients, client.IsLocal
  calls : ∀ call ∈ w.calls, call.client < w.clients.length ∧ call.state.InOrder w.now

variable {w w' : World} {e : Event} {es : List Event} {i k : Nat}

theorem isLocal_of_link? (hw : Local w) (h : w.link? i = some l) : l.client.IsLocal :=
  hw.clients _ (List.mem_of_getElem? (link?_eq_some_iff.mp h).1)

/-- One client and one call are replaced. -/
theorem Local.stepCall {f : CallState → Link → Option (CallState × Link)} (hw : Local w)
    (hf : ∀ {s s' : CallState} {l l' : Link}, s.InOrder w.now → f s l = some (s', l') →
      l.client.Keeps l'.client ∧ s'.InOrder w.now)
    (h : w.stepCall k f = some w') : Local w' := by
  obtain ⟨call, l, state, l', hcall, hl, hfs, rfl⟩ := stepCall_eq_some h
  have hmem := List.mem_of_getElem? hcall
  obtain ⟨hlt, hp⟩ := hw.calls call hmem
  obtain ⟨hkeeps, hp'⟩ := hf hp hfs
  have hlocal := (isLocal_of_link? hw hl).keeps hkeeps
  constructor
  case clients =>
    intro client hc
    rcases List.mem_or_eq_of_mem_set hc with hc | rfl
    · exact hw.clients client hc
    · exact hlocal
  case calls =>
    intro call' hc
    change call'.client < (w.clients.set _ _).length ∧ _
    rw [List.length_set]
    rcases List.mem_or_eq_of_mem_set hc with hc | rfl
    · exact hw.calls call' hc
    · exact ⟨hlt, hp'⟩

theorem Local.start {f : Nat → Link → CallState × Link} (hw : Local w)
    (hf : ∀ {l : Link}, l.client.IsLocal →
      l.client.Keeps (f w.now l).2.client ∧ (f w.now l).1.InOrder w.now) :
    Local (w.start i f) := by
  unfold World.start
  cases hl : w.link? i with
  | none => exact hw
  | some l =>
      obtain ⟨hkeeps, hp⟩ := hf (isLocal_of_link? hw hl)
      have hlocal := (isLocal_of_link? hw hl).keeps hkeeps
      constructor
      case clients =>
        intro client hc
        rcases List.mem_or_eq_of_mem_set hc with hc | rfl
        · exact hw.clients client hc
        · exact hlocal
      case calls =>
        intro call hc
        change call.client < (w.clients.set _ _).length ∧ _
        rw [List.length_set]
        rcases List.mem_append.mp hc with hc | hc
        · exact hw.calls call hc
        · obtain rfl := List.mem_singleton.mp hc
          exact ⟨lt_length_of_link? hl, hp⟩

theorem Local.alter {f : Client → Client} (hw : Local w)
    (hf : ∀ {client : Client}, client.IsLocal → (f client).IsLocal) : Local (w.alter i f) := by
  constructor
  case clients =>
    intro client hc
    obtain ⟨k, hk⟩ := List.mem_iff_getElem?.mp hc
    change (w.clients.modify i f)[k]? = some client at hk
    rw [List.getElem?_modify] at hk
    obtain ⟨client', hk', rfl⟩ := Option.map_eq_some_iff.mp hk
    have hlocal := hw.clients client' (List.mem_of_getElem? hk')
    split
    · exact hf hlocal
    · exact hlocal
  case calls =>
    intro call hc
    change call.client < (w.clients.modify i f).length ∧ _
    rw [List.length_modify]
    exact hw.calls call hc

theorem Local.withLink (hw : Local w) (h : l.client.IsLocal) : Local (w.withLink i l) := by
  constructor
  case clients =>
    intro client hc
    rcases List.mem_or_eq_of_mem_set hc with hc | rfl
    · exact hw.clients client hc
    · exact h
  case calls =>
    intro call hc
    change call.client < (w.clients.set _ _).length ∧ _
    rw [List.length_set]
    exact hw.calls call hc

theorem Local.step {task : Task} (hw : Local w) (h : w.step task = some w') : Local w' := by
  cases task with
  | call k =>
      exact hw.stepCall (f := CallState.step w.clock)
        (fun hp hf => ⟨CallState.keeps_of_step hf, hp.step hf⟩) h
  | branch k b =>
      exact hw.stepCall (f := CallState.stepBranch w.clock b)
        (fun hp hf => ⟨CallState.keeps_of_stepBranch hf, hp.stepBranch hf⟩) h
  | freedPump i =>
      obtain ⟨l, hl, h⟩ := Option.bind_eq_some_iff.mp h
      obtain ⟨unlocks, -, rfl⟩ := Option.map_eq_some_iff.mp h
      exact hw.withLink ((isLocal_of_link? hw hl).keeps (.of_eq rfl rfl rfl rfl rfl))
  | requestPump i =>
      obtain ⟨l, hl, h⟩ := Option.bind_eq_some_iff.mp h
      obtain ⟨priorities, -, rfl⟩ := Option.map_eq_some_iff.mp h
      exact hw.withLink ((isLocal_of_link? hw hl).keeps (.of_eq rfl rfl rfl rfl rfl))
  | sweeper k =>
      simp only [World.step] at h
      split at h
      · cases h
      · obtain ⟨-, h⟩ := Option.ite_none_right_eq_some.mp h
        cases h
        exact ⟨hw.clients, hw.calls⟩

/-- Only a plan for openings can keep a client from talking to the authority directly. -/
theorem Local.next (hw : Local w) (h : w.next e = some w')
    (he : ∀ i plan, e ≠ .planOpenings i plan) : Local w' := by
  cases e with
  | lock i requests wait =>
      cases h
      exact hw.start fun hl =>
        ⟨CallState.keeps_lock _ _ _ _, CallState.inOrder_lock requests wait hl⟩
  | release i releases =>
      cases h
      exact hw.start fun _ =>
        ⟨CallState.keeps_release _ _ _, CallState.inOrder_release releases _ _⟩
  | listen i thresholds =>
      cases h
      exact hw.start fun _ =>
        ⟨CallState.keeps_listen _ _ _, CallState.inOrder_listen thresholds _ _⟩
  | stopListening i thresholds =>
      cases h
      exact hw.alter fun hl => hl.keeps (.of_eq rfl rfl rfl rfl rfl)
  | cancel k =>
      cases h
      unfold cancel
      cases hs : w.stepCall k fun s l => some (s.cancel l) with
      | none => exact hw
      | some w' =>
          refine hw.stepCall ?_ hs
          intro s s' l l' _ hf
          have hkeeps := CallState.keeps_cancel s l
          have horder := CallState.inOrder_cancel w.now s l
          rw [Option.some.inj hf] at hkeeps horder
          exact ⟨hkeeps, horder⟩
  | shutdown i =>
      cases h
      exact hw.alter fun hl => hl.keeps (.of_eq rfl rfl rfl rfl rfl)
  | planOpenings i plan => exact absurd rfl (he i plan)
  | closeOwn i =>
      cases h
      refine hw.alter fun {client} hl => hl.keeps (.of_eq rfl rfl rfl ?_ rfl)
      rw [hl.own_eq]
      rfl
  | reopenOwn i =>
      cases h
      refine hw.alter fun {client} hl => hl.keeps (.of_eq rfl rfl rfl ?_ rfl)
      rw [hl.own_eq]
      rfl
  | announceOwn i batches =>
      cases h
      refine hw.alter fun {client} hl => hl.keeps (.of_eq rfl rfl rfl ?_ rfl)
      rw [hl.own_eq]
      rfl
  | visit e =>
      cases h
      exact ⟨hw.clients, hw.calls⟩
  | sweepEvery interval =>
      cases h
      exact ⟨hw.clients, hw.calls⟩
  | wait moment calendar =>
      obtain ⟨hle, h⟩ := Option.ite_none_right_eq_some.mp h
      cases h
      exact ⟨hw.clients, fun call hc => ⟨(hw.calls call hc).1, (hw.calls call hc).2.mono hle⟩⟩
  | turn task => exact hw.step h

end World

end LeasedLocks
