import LeasedLocks.Proofs.Settling

/-!
# What a call hears

A call hears the answer to its first message, and from whoever waits for a tree the answers
to the messages that ask for it again. What it hears in a run (`World.hearings`) decides what
it knows: the fault with which it fails is the first one (`Hearing.firstFault?`), and of each
tree it knows the last reply (`Hearing.lastReply`).

## Implementation notes

A hearing is kept with the trees that were asked for, so that it can be judged without
looking at the call. A wait that breaks off without an answer leaves a hearing behind as well:
its fault counts like that of a message.
-/

namespace LeasedLocks

/-- What a call hears at once. -/
structure Hearing where
  /-- The trees that were asked for. -/
  asked : List Request
  /-- The place of the tree, if it was asked for again on its own. -/
  place : Option Nat
  answer : Except Fault (List Reply)

namespace Hearing

/-- The answer consists of replies that fit. -/
def Fits (h : Hearing) : Prop :=
  ∃ replies, h.answer = .ok replies ∧ LeasedLocks.Fits h.asked replies

/-- The fault that a call takes from what it hears. -/
def fault? (h : Hearing) : Option Fault :=
  match h.answer.bind (checkReplies h.asked) with
  | .error f => some f
  | .ok _ => none

/-- The reply to the tree at place `n`, if there is one. -/
def replyTo (n : Nat) (h : Hearing) : Option Reply :=
  match h.answer with
  | .error _ => none
  | .ok replies =>
    match h.place with
    | none => replies[n]?
    | some m => if m = n then replies.head? else none

/-- The first fault that was heard of. -/
def firstFault? (hs : List Hearing) : Option Fault := hs.findSome? fault?

/-- The last reply to the tree at place `n`. -/
def lastReply (n : Nat) (hs : List Hearing) : Option Reply := hs.reverse.findSome? (replyTo n)

end Hearing

/-- What whoever waits for the tree at place `n` hears with its next step. -/
def TreeWait.hears (c : Clock) (n : Nat) (t : TreeWait) (l : Link) : List Hearing :=
  match t.stage with
  | .arming _ j =>
    match l.joinUnlocks c.now j with
    | some (.failed e, _) => [⟨[t.request], some n, .error e⟩]
    | _ => []
  | .asking _ x =>
    match l.ask c [t.request] x with
    | some (.answered answer, _) => [⟨[t.request], some n, answer⟩]
    | some (.crashed report, _) => [⟨[t.request], some n, .error (@Fault.waitLost report)⟩]
    | _ => []
  | _ => []

/-- What a call hears with the next step of one of its tasks. -/
def CallState.hears (c : Clock) (s : CallState) (l : Link) : Task → List Hearing
  | .call _ =>
    match s with
    | locking requests _ (.asking x) =>
      match l.ask c requests x with
      | some (.answered answer, _) => [⟨requests, none, answer⟩]
      | _ => []
    | _ => []
  | .branch _ b =>
    match s with
    | locking _ _ (.waiting _ _ _ branches _) =>
      match branches[b]? with
      | some ⟨index, some t⟩ => t.hears c index l
      | _ => []
    | _ => []
  | _ => []

namespace World

/-- What the call at place `k` hears with this event. -/
def hearingsOf (k : Nat) (w : World) : Event → List Hearing
  | .turn task =>
    if task.call? = some k then
      match w.calls[k]? with
      | none => []
      | some call =>
        match w.link? call.client with
        | none => []
        | some l => call.state.hears w.clock l task
    else []
  | _ => []

/-- What the call at place `k` hears in the course of these events. -/
def hearings (k : Nat) : World → List Event → List Hearing
  | _, [] => []
  | w, e :: es => w.hearingsOf k e ++ ((w.next e).map (hearings k · es)).getD []

end World

variable {requests : List Request} {replies : List Reply} {y : Reply} {h : Hearing}
  {hs : List Hearing} {n m : Nat} {c : Clock} {l l' : Link} {t : TreeWait}
  {r : TreeProgress} {deadline : Nat}

/-! ## What hearings come to -/

namespace Hearing

theorem fault?_eq_none_iff : h.fault? = none ↔ h.Fits := by
  obtain ⟨asked, place, answer⟩ := h
  cases answer with
  | error f => simp [fault?, Fits, Except.bind]
  | ok replies =>
      simp only [fault?, Fits, Except.bind, Except.ok.injEq, exists_eq_left']
      constructor
      · intro hnone
        split at hnone
        · cases hnone
        · next hcheck => exact fits_of_checkReplies hcheck
      · intro hfits
        rw [checkReplies_of_fits hfits]

theorem exists_unexpected (ha : h.answer = .ok replies)
    (hfits : ¬ LeasedLocks.Fits h.asked replies) :
    ∃ why, h.fault? = some (.unexpectedReply why) := by
  obtain ⟨why, hcheck⟩ := exists_unexpectedReply hfits
  refine ⟨why, ?_⟩
  simp only [fault?, ha, Except.bind, hcheck]

theorem firstFault?_append (hs hs' : List Hearing) :
    firstFault? (hs ++ hs') = (firstFault? hs).or (firstFault? hs') := List.findSome?_append

@[simp] theorem firstFault?_singleton (h : Hearing) : firstFault? [h] = h.fault? := by
  simp [firstFault?]

theorem firstFault?_cons_of_some {f : Fault} (hf : h.fault? = some f) (hs : List Hearing) :
    firstFault? (h :: hs) = some f := by
  simp [firstFault?, hf]

theorem firstFault?_eq_none_iff : firstFault? hs = none ↔ ∀ h ∈ hs, h.Fits := by
  simp only [firstFault?, List.findSome?_eq_none_iff, fault?_eq_none_iff]

theorem lastReply_append (n : Nat) (hs hs' : List Hearing) :
    lastReply n (hs ++ hs') = (lastReply n hs').or (lastReply n hs) := by
  rw [lastReply, List.reverse_append, List.findSome?_append]
  rfl

@[simp] theorem lastReply_singleton (n : Nat) (h : Hearing) : lastReply n [h] = h.replyTo n := by
  simp [lastReply]

/-- The replies to the first message are one for each tree. -/
theorem lastReply_first (n : Nat) : lastReply n [⟨requests, none, .ok replies⟩] = replies[n]? := by
  rw [lastReply_singleton]
  rfl

/-- Answers to whoever waits for one tree are no replies to another one. -/
theorem lastReply_of_ne (hplace : ∀ h ∈ hs, h.place = some m) (hne : n ≠ m) :
    lastReply n hs = none := by
  rw [lastReply, List.findSome?_eq_none_iff]
  intro h hh
  unfold replyTo
  split
  · rfl
  · rw [hplace h (List.mem_reverse.mp hh)]
    exact if_neg hne.symm

end Hearing

/-! ## What a wait makes of what it hears -/

/-- The last reply that a wait has, whether it goes on or not. -/
def TreeProgress.latest? : TreeProgress → Option Reply
  | goesOn t => t.latest
  | ended (.ok latest) => latest
  | ended (.error _) => none

/-- What a wait leaves behind when it ends is its last reply. -/
theorem TreeProgress.latest?_of_reply? (h : r.reply? = some y) : r.latest? = some y := by
  unfold reply? at h
  split at h
  · exact h
  · cases h

namespace TreeWait

theorem place_of_mem_hears (hh : h ∈ t.hears c n l) : h.asked = [t.request] ∧ h.place = some n := by
  unfold hears at hh
  split at hh
  · split at hh
    · rw [List.mem_singleton.mp hh]
      exact ⟨rfl, rfl⟩
    · cases hh
  · split at hh
    · rw [List.mem_singleton.mp hh]
      exact ⟨rfl, rfl⟩
    · rw [List.mem_singleton.mp hh]
      exact ⟨rfl, rfl⟩
    · cases hh
  · cases hh

/-- With an answer that is not accepted a wait ends, with the fault of the answer. A reply
that fits is the last one that the wait has. -/
theorem answered_of_hearing (t : TreeWait) (n : Nat) (armed : List Ticket)
    (answer : Except Fault (List Reply)) (l : Link) :
    (∃ f, Hearing.fault? ⟨[t.request], some n, answer⟩ = some f ∧
      (t.answered armed answer l).1 = .ended (.error f)) ∨
    ∃ y, answer = .ok [y] ∧ y.objectIds = t.request.objectIds ∧
      (t.answered armed answer l).1.failure? = none ∧
      (t.answered armed answer l).1.latest? = some y := by
  cases hcheck : answer.bind (checkReplies [t.request]) with
  | error f =>
      refine .inl ⟨f, ?_, ?_⟩
      · simp only [Hearing.fault?, hcheck]
      · simp only [answered, hcheck]
        rfl
  | ok replies =>
      cases answer with
      | error f => cases hcheck
      | ok replies' =>
          obtain ⟨y, rfl, hids⟩ := (fits_of_checkReplies hcheck).eq_singleton
          obtain rfl := eq_of_checkReplies hcheck
          refine .inr ⟨y, rfl, hids, ?_⟩
          simp only [answered, hcheck, List.getLast?_singleton]
          split <;> exact ⟨rfl, rfl⟩

/-- What a step of a wait comes to is decided by what it hears: if it hears nothing its last
reply stays the same. -/
theorem hears_cases (n : Nat) (hs : t.step c deadline l = some (r, l')) :
    (t.hears c n l = [] ∧ r.failure? = none ∧ r.latest? = t.latest) ∨
    (∃ answer f, t.hears c n l = [⟨[t.request], some n, answer⟩] ∧
      Hearing.fault? ⟨[t.request], some n, answer⟩ = some f ∧ r = .ended (.error f)) ∨
    ∃ y, t.hears c n l = [⟨[t.request], some n, .ok [y]⟩] ∧
      y.objectIds = t.request.objectIds ∧ r.failure? = none ∧ r.latest? = some y := by
  have hlate : t.timeUp c.now deadline l = some (r, l') →
      r.failure? = none ∧ r.latest? = t.latest := by
    intro hs
    obtain ⟨-, hs⟩ := Option.ite_none_right_eq_some.mp hs
    cases hs
    exact ⟨rfl, rfl⟩
  cases hstage : t.stage with
  | round =>
      refine .inl ⟨by simp only [hears, hstage], ?_⟩
      simp only [step, hstage] at hs
      split at hs <;> cases hs <;> exact ⟨rfl, rfl⟩
  | arming armed j =>
      simp only [step, hstage] at hs
      simp only [hears, hstage]
      split at hs
      · next hj => exact .inl ⟨by rw [hj], hlate hs⟩
      · next hj =>
          cases hs
          exact .inl ⟨by rw [hj], rfl, rfl⟩
      · next hj =>
          cases hs
          exact .inl ⟨by rw [hj], rfl, rfl⟩
      · next e _ hj =>
          cases hs
          exact .inr (.inl ⟨.error e, e, by rw [hj], rfl, rfl⟩)
  | asking armed x =>
      simp only [step, hstage] at hs
      simp only [hears, hstage]
      split at hs
      · next ha => exact .inl ⟨by rw [ha], hlate hs⟩
      · next ha =>
          cases hs
          exact .inl ⟨by rw [ha], rfl, rfl⟩
      · next answer l₁ ha =>
          obtain rfl := congrArg Prod.fst (Option.some.inj hs)
          rcases t.answered_of_hearing n armed answer l₁ with
            ⟨f, hf, heq⟩ | ⟨y, rfl, hids, hfit⟩
          · exact .inr (.inl ⟨answer, f, by rw [ha], hf, heq⟩)
          · exact .inr (.inr ⟨y, by rw [ha], hids, hfit⟩)
      · next report l₁ ha =>
          cases hs
          exact .inr (.inl ⟨.error (@Fault.waitLost report), _, by rw [ha], rfl, rfl⟩)
  | parked =>
      refine .inl ⟨by simp only [hears, hstage], ?_⟩
      simp only [step, hstage] at hs
      split at hs
      · cases hs
        exact ⟨rfl, rfl⟩
      · cases hs
        exact ⟨rfl, rfl⟩
      · exact hlate hs

end TreeWait

/-! ## In a run -/

namespace World

variable {w w' : World} {e : Event} {es : List Event} {k : Nat} {call : Call} {task : Task}

theorem hearings_cons (hn : w.next e = some w') :
    w.hearings k (e :: es) = w.hearingsOf k e ++ w'.hearings k es := by
  simp only [hearings, hn, Option.map_some, Option.getD_some]

theorem hearingsOf_eq_nil (h : e.isTurnOf k = false) : w.hearingsOf k e = [] := by
  cases e with
  | turn task =>
      simp only [Event.isTurnOf, beq_eq_false_iff_ne] at h
      simp only [hearingsOf, if_neg h]
  | _ => rfl

theorem hearingsOf_turn (hcall : w.calls[k]? = some call) (hl : w.link? call.client = some l)
    (htask : task.call? = some k) :
    w.hearingsOf k (.turn task) = call.state.hears w.clock l task := by
  simp only [hearingsOf, if_pos htask, hcall, hl]

end World

end LeasedLocks
