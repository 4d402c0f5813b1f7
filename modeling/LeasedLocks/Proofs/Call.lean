import LeasedLocks.Call
import LeasedLocks.Proofs.TreeWait

/-!
# Calls and their waits

What a call does comes down to a few things that a client does with its waits
(`Link.Does`): new ones begin, one takes a step, or all of them are left.
-/

namespace LeasedLocks

/-- The waits of a call that are not over. -/
def CallState.waits : CallState → List TreeWait
  | locking _ _ (.waiting _ _ _ branches _) => branches.filterMap Branch.wait
  | _ => []

namespace TreeProgress

/-- The wait that is left, if it is not over. -/
def wait? : TreeProgress → Option TreeWait
  | goesOn t => some t
  | ended _ => none

/-- The fault with which a wait ended. -/
def failure? : TreeProgress → Option Fault
  | ended (.error e) => some e
  | _ => none

/-- The reply with which a wait ended. -/
def reply? : TreeProgress → Option Reply
  | ended (.ok reply) => reply
  | _ => none

end TreeProgress

/-- When a call that asked for locks returned, and with what, unless it failed. -/
def CallState.outcome? : CallState → Option (Nat × Outcome)
  | returned moment (.locked (.ok o)) => some (moment, o)
  | _ => none

/-- A wait that has not done anything yet. -/
structure TreeWait.IsFresh (t : TreeWait) : Prop where
  stage_eq : t.stage = .round
  blocking_eq : t.blocking = []

/-- All that the task that makes a call can do in one step. -/
inductive CallState.Steps (c : Clock) : CallState → Link → CallState → Link → Prop where
  | asks {requests : List Request} {wait : Option Duration} {x x' : Exchange (List Reply)}
      {l l' : Link} : l.ask c requests x = some (.notYet x', l') →
      Steps c (.locking requests wait (.asking x)) l (.locking requests wait (.asking x')) l'
  | hears {requests : List Request} {wait : Option Duration} {x : Exchange (List Reply)}
      {answer : Except Fault (List Reply)} {l l' : Link} :
      l.ask c requests x = some (.answered answer, l') →
      Steps c (.locking requests wait (.asking x)) l (answered requests wait c.now answer) l'
  | crashes {requests : List Request} {wait : Option Duration} {x : Exchange (List Reply)}
      {report : String} {l l' : Link} : l.ask c requests x = some (.crashed report, l') →
      Steps c (.locking requests wait (.asking x)) l (.returned c.now .crashed) l'
  | finishes {requests : List Request} {wait : Option Duration} {started : Nat}
      {limit : Duration} {replies : List Reply} {branches : List Branch}
      {failure : Option Fault} {result : CallResult} {l : Link} :
      branches.all (·.wait.isNone) = true →
      finish requests started c.now limit replies failure = .returned c.now result →
      Steps c (.locking requests wait (.waiting started limit replies branches failure)) l
        (.returned c.now result) l
  | passes {releases : List Release} {x x' : Exchange (List String)} {l : Link}
      {a : Authority} :
      x.step (Route.passReleases releases) c.now l.authority = some (.notYet x', a) →
      Steps c (.releasing releases x) l (.releasing releases x') { l with authority := a }
  | released {releases : List Release} {x : Exchange (List String)}
      {y : Exchanged (List String)} {result : CallResult} {l : Link} {a : Authority} :
      x.step (Route.passReleases releases) c.now l.authority = some (y, a) →
      Steps c (.releasing releases x) l (.returned c.now result) { l with authority := a }
  | joins {j j' : Joining} {l l' : Link} :
      l.joinPriorities c.now j = some (.notYet j', l') → Steps c (.joining j) l (.joining j') l'
  | joined {j : Joining} {r : Joined} {result : CallResult} {l l' : Link} :
      l.joinPriorities c.now j = some (r, l') →
      Steps c (.joining j) l (.returned c.now result) l'

namespace Link

/-- What a client may do at once with some of its waits. -/
inductive Does (c : Clock) : List TreeWait → Link → List TreeWait → Link → Prop where
  | begins {new : List TreeWait} {l l' : Link} : Onward l l' →
      l'.client.unlocks = l.client.unlocks → (∀ t ∈ new, t.IsFresh) → Does c [] l new l'
  | steps {t : TreeWait} {r : TreeProgress} {l l' : Link} : t.Steps c l r l' →
      Does c [t] l r.waits l'
  | leaves (ts : List TreeWait) (l : Link) :
      Does c ts l [] (ts.foldl (fun l t => t.leave l) l)
  | reads {unlocks : UnlockWatch} {l : Link} : l.client.unlocks.pump l.freed = some unlocks →
      Does c [] l [] (l.withUnlocks unlocks)
  | shutsDown (l : Link) : Does c [] l [] { l with client := l.client.shutdown }

variable {l l' : Link} {c : Clock} {t : TreeWait} {old new rest ts : List TreeWait}
  {r : TreeProgress} {now deadline : Nat} {s s' : CallState}

theorem authority_foldl_leave (ts : List TreeWait) (l : Link) :
    (ts.foldl (fun l t => t.leave l) l).authority = l.authority := by
  induction ts generalizing l with
  | nil => rfl
  | cons t ts ih => exact ih _

theorem announces_of_steps (h : t.Steps c l r l') : l.authority.Announces l'.authority := by
  cases h with
  | ends => exact .refl _
  | arms _ => exact .refl _
  | joins _ hj => exact (onward_joinUnlocks hj).announces
  | joined _ hj => exact (onward_joinUnlocks hj).announces
  | failed _ hj => exact (onward_joinUnlocks hj).announces
  | asks _ ha => exact (ask_eq_some ha).2.1
  | settles _ ha => exact (ask_eq_some ha).2.1
  | parks _ ha _ => exact (ask_eq_some ha).2.1
  | wakes _ _ => exact .refl _

/-- Whatever a client does, the authority announces what becomes free. -/
theorem Does.announces (h : Does c old l new l') : l.authority.Announces l'.authority := by
  cases h with
  | begins ho _ _ => exact ho.announces
  | steps hs => exact announces_of_steps hs
  | leaves ts l => exact authority_foldl_leave old l ▸ .refl _
  | reads _ => exact .refl _
  | shutsDown l => exact .refl _

/-! ## The books are kept -/

theorem tickets_of_isFresh (h : t.IsFresh) : t.tickets = [] ∧ t.openings = 0 := by
  obtain ⟨htickets, hopen⟩ := TreeWait.books_of_round h.stage_eq
  exact ⟨htickets.trans h.blocking_eq, hopen⟩

theorem Serves.begin (h : l.Serves rest) (hnew : ∀ t ∈ new, t.IsFresh) :
    l.Serves (new ++ rest) := by
  induction new with
  | nil => exact h
  | cons t new ih =>
      obtain ⟨htickets, hopen⟩ := tickets_of_isFresh (hnew t List.mem_cons_self)
      have hrest := ih fun u hu => hnew u (List.mem_cons_of_mem _ hu)
      change l.Serves (t :: (new ++ rest))
      rw [serves_cons_iff, htickets, hopen, List.nil_append, Nat.zero_add]
      exact hrest

theorem Serves.leaveAll (h : l.Serves (ts ++ rest)) :
    Carries l (ts.foldl (fun l t => t.leave l) l) [] rest := by
  induction ts generalizing l with
  | nil => exact ⟨h, .refl l, fun k _ => .refl _ k⟩
  | cons t ts ih =>
      have hfirst := h.leave
      apply (ih hfirst.serves).after hfirst.onward
      intro k hk
      obtain ⟨u, hu, hk⟩ := List.mem_flatMap.mp hk
      exact hfirst.undisturbed k (List.mem_flatMap.mpr ⟨u, List.mem_append_right ts hu, hk⟩)

/-- Whatever a client does, its watch serves the waits that are left. -/
theorem Serves.does (h : l.Serves (old ++ rest)) (hd : Does c old l new l') :
    l'.Serves (new ++ rest) := by
  cases hd with
  | begins ho hu hnew => exact (h.onward ho hu).begin hnew
  | steps hs => exact (h.steps hs).serves
  | leaves ts l => exact h.leaveAll.serves
  | reads hp => exact UnlockWatch.Serves.pump h hp
  | shutsDown l => exact UnlockWatch.Serves.shutdown h

end Link

namespace CallState

/-! ## What calls do -/

variable {l l' : Link} {c : Clock} {now : Nat} {s s' : CallState}

theorem isFresh_of_mem_branchesOf {requests : List Request} {replies : List Reply} {b : Branch}
    {t : TreeWait} (hb : b ∈ branchesOf requests replies) (ht : b.wait = some t) : t.IsFresh := by
  obtain ⟨x, -, rfl⟩ := List.mem_map.mp hb
  cases ht
  exact ⟨rfl, rfl⟩

/-- With the answer a call fails, or it has a reply to each of its trees: it returns them, or
waits for those that were refused. -/
theorem answered_cases (requests : List Request) (wait : Option Duration) (now : Nat)
    (answer : Except Fault (List Reply)) :
    (∃ e, answered requests wait now answer = .returned now (.locked (.error e))) ∨
      ∃ replies, answer = .ok replies ∧
        Fits requests replies ∧
        (answered requests wait now answer =
            .returned now (.locked (Outcome.assemble requests replies .zero)) ∨
          ∃ d, wait = some d ∧ branchesOf requests replies ≠ [] ∧
            answered requests wait now answer = .locking requests wait
              (.waiting now d replies (branchesOf requests replies) none)) := by
  unfold answered
  split
  · exact .inl ⟨_, rfl⟩
  · next replies hcheck =>
      cases answer with
      | error e => cases hcheck
      | ok replies' =>
          have hEq : replies = replies' := eq_of_checkReplies hcheck
          subst hEq
          refine .inr ⟨replies, rfl, fits_of_checkReplies hcheck, ?_⟩
          split
          · exact .inl rfl
          · next d =>
              split
              · exact .inl rfl
              · next hne => exact .inr ⟨d, rfl, hne, rfl⟩

theorem isFresh_of_mem_waits_answered {requests : List Request} {wait : Option Duration}
    {answer : Except Fault (List Reply)} {t : TreeWait}
    (ht : t ∈ (answered requests wait now answer).waits) : t.IsFresh := by
  rcases answered_cases requests wait now answer with
    ⟨e, heq⟩ | ⟨replies, -, -, heq | ⟨d, -, -, heq⟩⟩
  · rw [heq] at ht
    cases ht
  · rw [heq] at ht
    cases ht
  · rw [heq] at ht
    obtain ⟨b, hb, hwait⟩ := List.mem_filterMap.mp ht
    exact isFresh_of_mem_branchesOf hb hwait

theorem steps_of_step (h : s.step c l = some (s', l')) : Steps c s l s' l' := by
  cases s with
  | locking requests wait stage =>
      cases stage with
      | asking x =>
          obtain ⟨⟨y, l₁⟩, ha, hEq⟩ := Option.map_eq_some_iff.mp h
          cases y with
          | notYet x' =>
              cases hEq
              exact .asks ha
          | answered answer =>
              cases hEq
              exact .hears ha
          | crashed =>
              cases hEq
              exact .crashes ha
      | waiting started limit replies branches failure =>
          obtain ⟨hall, hEq⟩ := Option.ite_none_right_eq_some.mp h
          cases hEq
          cases failure <;> exact .finishes hall rfl
  | releasing releases x =>
      obtain ⟨⟨y, a⟩, hstep, hEq⟩ := Option.map_eq_some_iff.mp h
      cases y with
      | notYet x' =>
          cases hEq
          exact .passes hstep
      | answered answer =>
          cases hEq
          exact .released hstep
      | crashed =>
          cases hEq
          exact .released hstep
  | joining j =>
      obtain ⟨⟨r, l₁⟩, hj, hEq⟩ := Option.map_eq_some_iff.mp h
      cases r with
      | notYet j' =>
          cases hEq
          exact .joins hj
      | running =>
          cases hEq
          exact .joined hj
      | failed e =>
          cases hEq
          exact .joined hj
  | returned moment result => cases h
  | cancelled => cases h

/-- Whoever listens for requests changes nothing but what the client listens to. -/
theorem client_of_joinPriorities {j : Joining} {r : Joined}
    (h : l.joinPriorities now j = some (r, l')) : ∃ priorities source,
      l' = { l with client := { l.client with priorities, source } } := by
  obtain ⟨⟨_, priorities, source⟩, -, hlink⟩ := Option.map_eq_some_iff.mp h
  cases hlink
  exact ⟨priorities, source, rfl⟩

/-- A step of the task that makes the call concerns no wait that goes on. -/
theorem does_of_step (h : s.step c l = some (s', l')) :
    s.waits = [] ∧ Link.Does c [] l s'.waits l' := by
  have hasked {requests : List Request} {x : Exchange (List Reply)}
      {y : Exchanged (List Reply)} {new : List TreeWait}
      (ha : l.ask c requests x = some (y, l')) (hnew : ∀ t ∈ new, t.IsFresh) :
      Link.Does c [] l new l' :=
    .begins (Link.onward_ask ha) (by rw [(Link.ask_eq_some ha).1]) hnew
  have hgave {releases : List Release} {x : Exchange (List String)}
      {y : Exchanged (List String)} {a : Authority}
      (hx : x.step (Route.passReleases releases) c.now l.authority = some (y, a)) :
      Link.Does c [] l [] { l with authority := a } := by
    have hann : l.authority.Announces a := by
      rw [Exchange.authority_of_step hx]
      split
      · exact Route.announces_passReleases releases _
      · exact .refl _
    exact .begins (.of_own_eq hann rfl) rfl fun _ h => nomatch h
  have hjoined {j : Joining} {r : Joined} (hj : l.joinPriorities c.now j = some (r, l')) :
      Link.Does c [] l [] l' := by
    obtain ⟨_, _, rfl⟩ := client_of_joinPriorities hj
    exact .begins (Link.onward_client l rfl) rfl fun _ h => nomatch h
  cases steps_of_step h with
  | asks ha => exact ⟨rfl, hasked ha fun _ h => nomatch h⟩
  | hears ha => exact ⟨rfl, hasked ha fun t ht => isFresh_of_mem_waits_answered ht⟩
  | crashes ha => exact ⟨rfl, hasked ha fun _ h => nomatch h⟩
  | finishes hall _ =>
      refine ⟨?_, .begins (.refl l) rfl fun _ h => nomatch h⟩
      rw [waits, List.filterMap_eq_nil_iff]
      intro b hb
      simpa using List.all_eq_true.mp hall b hb
  | passes hx => exact ⟨rfl, hgave hx⟩
  | released hx => exact ⟨rfl, hgave hx⟩
  | joins hj => exact ⟨rfl, hjoined hj⟩
  | joined hj => exact ⟨rfl, hjoined hj⟩

/-- The task that makes the call does nothing to its client, except that it may listen. -/
theorem client_of_step (h : s.step c l = some (s', l')) :
    ∃ priorities source, l'.client = { l.client with priorities, source } := by
  have hsame (hclient : l'.client = l.client) :
      ∃ priorities source, l'.client = { l.client with priorities, source } :=
    ⟨l.client.priorities, l.client.source, hclient⟩
  cases steps_of_step h with
  | asks ha => exact hsame (Link.ask_eq_some ha).1
  | hears ha => exact hsame (Link.ask_eq_some ha).1
  | crashes ha => exact hsame (Link.ask_eq_some ha).1
  | finishes _ _ => exact hsame rfl
  | passes _ => exact ⟨_, _, rfl⟩
  | released _ => exact ⟨_, _, rfl⟩
  | joins hj =>
      obtain ⟨priorities, source, rfl⟩ := client_of_joinPriorities hj
      exact ⟨priorities, source, rfl⟩
  | joined hj =>
      obtain ⟨priorities, source, rfl⟩ := client_of_joinPriorities hj
      exact ⟨priorities, source, rfl⟩

/-- The waits that a call has after a turn of its own task have just begun. -/
theorem isFresh_of_step (h : s.step c l = some (s', l')) : ∀ t ∈ s'.waits, t.IsFresh := by
  obtain ⟨-, hd⟩ := does_of_step h
  generalize s'.waits = new at hd
  cases hd with
  | begins _ _ hnew => exact hnew
  | leaves _ _ => exact fun _ h => nomatch h
  | reads _ => exact fun _ h => nomatch h
  | shutsDown _ => exact fun _ h => nomatch h

/-- The waits of a call with one of its branches in front, before and after it is
replaced. -/
theorem perm_filterMap_wait {branches : List Branch} {k : Nat} {b : Branch}
    (hb : branches[k]? = some b) :
    (branches.filterMap Branch.wait).Perm
        (b.wait.toList ++ (branches.eraseIdx k).filterMap Branch.wait) ∧
      ∀ d : Branch, ((branches.set k d).filterMap Branch.wait).Perm
        (d.wait.toList ++ (branches.eraseIdx k).filterMap Branch.wait) := by
  obtain ⟨hlt, rfl⟩ := List.getElem?_eq_some_iff.mp hb
  have hfront (d : Branch) : (d :: branches.eraseIdx k).filterMap Branch.wait =
      d.wait.toList ++ (branches.eraseIdx k).filterMap Branch.wait := by
    rw [List.filterMap_cons]
    cases d.wait <;> rfl
  constructor
  · rw [← hfront]
    exact (List.getElem_cons_eraseIdx_perm hlt).symm.filterMap _
  · intro d
    rw [← hfront]
    exact (List.set_perm_cons_eraseIdx hlt d).filterMap _

/-! A reply with which a wait ended takes the place of the one before. -/

theorem length_elim_set (y : Option Reply) (replies : List Reply) (n : Nat) :
    (y.elim replies (replies.set n)).length = replies.length := by
  cases y with
  | none => rfl
  | some y => exact List.length_set

theorem getElem?_elim_set_ne {m n : Nat} (h : m ≠ n) (y : Option Reply) (replies : List Reply) :
    (y.elim replies (replies.set n))[m]? = replies[m]? := by
  cases y with
  | none => rfl
  | some y => exact List.getElem?_set_ne h.symm

theorem getElem?_elim_set_self {replies : List Reply} {n : Nat} (h : n < replies.length)
    (y : Option Reply) : (y.elim replies (replies.set n))[n]? = y.or replies[n]? := by
  cases y with
  | none => rfl
  | some y => exact List.getElem?_set_self h

theorem eq_of_getElem?_elim_set {y : Option Reply} {replies : List Reply} {n : Nat} {z : Reply}
    (h : (y.elim replies (replies.set n))[n]? = some z) :
    y = some z ∨ y = none ∧ replies[n]? = some z := by
  cases y with
  | none => exact .inr ⟨rfl, h⟩
  | some y =>
      have hset : (replies.set n y)[n]? = some z := h
      rw [List.getElem?_set_self'] at hset
      obtain ⟨_, -, rfl⟩ := Option.map_eq_some_iff.mp hset
      exact .inl rfl

/-- All that a step of a wait does to its call. -/
theorem stepBranch_eq_some {k : Nat} (h : s.stepBranch c k l = some (s', l')) :
    ∃ requests w started wait replies branches failure index t r,
      s = locking requests w (.waiting started wait replies branches failure) ∧
      branches[k]? = some ⟨index, some t⟩ ∧
      t.step c (started + wait.ceilMillis) l = some (r, l') ∧
      s' = locking requests w (.waiting started wait
        (r.reply?.elim replies (replies.set index)) (branches.set k ⟨index, r.wait?⟩)
        (failure.or r.failure?)) := by
  unfold stepBranch at h
  split at h
  · next requests w started wait replies branches failure =>
      split at h
      · next index t hb =>
          obtain ⟨⟨r, l₁⟩, hstep, hEq⟩ := Option.map_eq_some_iff.mp h
          cases r with
          | goesOn t' =>
              cases hEq
              refine ⟨_, _, _, _, _, _, _, _, _, _, rfl, hb, hstep, ?_⟩
              simp [TreeProgress.reply?, TreeProgress.failure?, TreeProgress.wait?]
          | ended result =>
              rcases result with e | _ | reply
              · cases hEq
                exact ⟨_, _, _, _, _, _, _, _, _, _, rfl, hb, hstep, rfl⟩
              · cases hEq
                refine ⟨_, _, _, _, _, _, _, _, _, _, rfl, hb, hstep, ?_⟩
                simp [TreeProgress.reply?, TreeProgress.failure?, TreeProgress.wait?]
              · cases hEq
                refine ⟨_, _, _, _, _, _, _, _, _, _, rfl, hb, hstep, ?_⟩
                simp [TreeProgress.reply?, TreeProgress.failure?, TreeProgress.wait?]
      · cases h
  · cases h

/-- One wait of the call takes a step, and the others stay as they are. -/
theorem waits_of_stepBranch {k : Nat} (h : s.stepBranch c k l = some (s', l')) :
    ∃ t r deadline kept, s.waits.Perm (t :: kept) ∧ s'.waits.Perm (r.waits ++ kept) ∧
      t.step c deadline l = some (r, l') := by
  obtain ⟨_, _, started, wait, _, branches, _, index, t, r, rfl, hb, hstep, rfl⟩ :=
    stepBranch_eq_some h
  obtain ⟨hp, hset⟩ := perm_filterMap_wait hb
  refine ⟨t, r, started + wait.ceilMillis, (branches.eraseIdx k).filterMap Branch.wait, hp, ?_,
    hstep⟩
  cases r <;> exact hset _

/-- A step of a wait of the call concerns that wait alone. -/
theorem does_of_stepBranch {k : Nat} (h : s.stepBranch c k l = some (s', l')) :
    ∃ t r kept, s.waits.Perm (t :: kept) ∧ s'.waits.Perm (r.waits ++ kept) ∧
      t.Steps c l r l' := by
  obtain ⟨t, r, _, kept, hold, hnew, hstep⟩ := waits_of_stepBranch h
  exact ⟨t, r, kept, hold, hnew, TreeWait.steps_of_step hstep⟩

/-- All that a step does to a call whose trees are asked for. -/
theorem step_asking_eq_some {requests : List Request} {wait : Option Duration}
    {x : Exchange (List Reply)}
    (h : (locking requests wait (.asking x)).step c l = some (s', l')) :
    (∃ x', l.ask c requests x = some (.notYet x', l') ∧
      s' = locking requests wait (.asking x')) ∨
    (∃ answer, l.ask c requests x = some (.answered answer, l') ∧
      s' = answered requests wait c.now answer) ∨
    (∃ report, l.ask c requests x = some (.crashed report, l') ∧
      s' = returned c.now .crashed) := by
  cases steps_of_step h with
  | asks ha => exact .inl ⟨_, ha, rfl⟩
  | hears ha => exact .inr (.inl ⟨_, ha, rfl⟩)
  | crashes ha => exact .inr (.inr ⟨_, ha, rfl⟩)

/-- A call whose waits are over returns an outcome of all replies, unless one of them failed. -/
theorem assemble_of_finish {requests : List Request} {started now' : Nat} {limit : Duration}
    {replies : List Reply} {failure : Option Fault} {o : Outcome}
    (h : finish requests started now limit replies failure = .returned now' (.locked (.ok o))) :
    failure = none ∧
      Outcome.assemble requests replies (.min (.ofMillis (now - started)) limit) = .ok o := by
  cases failure with
  | some e => cases h
  | none =>
      injection h with _ hresult
      exact ⟨rfl, CallResult.locked.inj hresult⟩

theorem eq_of_outcome? {moment : Nat} {o : Outcome} (h : s.outcome? = some (moment, o)) :
    s = returned moment (.locked (.ok o)) := by
  unfold outcome? at h
  split at h
  · cases h
    rfl
  · cases h

/-- Whoever gives up a call leaves all of its waits. -/
theorem does_of_cancel (s : CallState) (l : Link) :
    (s.cancel l).1.waits = [] ∧ Link.Does c s.waits l [] (s.cancel l).2 := by
  cases s with
  | locking requests wait stage =>
      cases stage with
      | asking x => exact ⟨rfl, .leaves [] l⟩
      | waiting started limit replies branches failure =>
          exact ⟨rfl, .leaves (branches.filterMap Branch.wait) l⟩
  | releasing releases x => exact ⟨rfl, .leaves [] l⟩
  | joining j => exact ⟨rfl, .begins (Link.onward_client l rfl) rfl fun _ h => nomatch h⟩
  | returned moment result => exact ⟨rfl, .leaves [] l⟩
  | cancelled => exact ⟨rfl, .leaves [] l⟩

end CallState

end LeasedLocks
