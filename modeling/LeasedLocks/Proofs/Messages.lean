import LeasedLocks.Proofs.CallRuns

/-!
# The messages of a call

A call asks for all of its trees with one message when it begins. From then on only a wait
that has taken its tickets sends anything: it asks for its own tree (`TreeWait.sends`).
-/

namespace LeasedLocks

/-- The messages that go out with a step that makes this of a wait. -/
def TreeWait.sends (now : Nat) (t : TreeWait) : TreeProgress → List (Nat × List String)
  | .goesOn t' =>
    match t.stage, t'.stage with
    | .arming _ _, .asking _ _ => [(now, [t.request.objectId])]
    | _, _ => []
  | .ended _ => []

namespace World

/-- The messages that the client at place `i` has sent to ask for locks. -/
def sent (w : World) (i : Nat) : List (Nat × List String) :=
  w.clients[i]?.elim [] (·.sent.toList)

/-- The messages that the client at place `i` sends between two worlds. -/
def sentUntil (w : World) (i : Nat) (w' : World) : List (Nat × List String) :=
  (w'.sent i).drop (w.sent i).length

/-- The messages of the call at place `k` of the client at place `i` that go out with this
event. -/
def messagesOf (i k : Nat) (w : World) (e : Event) : List (Nat × List String) :=
  if e.isTurnOf k then ((w.next e).map (w.sentUntil i)).getD [] else []

/-- The messages of the call at place `k` of the client at place `i` that go out in the
course of these events. -/
def messages (i k : Nat) : World → List Event → List (Nat × List String)
  | _, [] => []
  | w, e :: es => w.messagesOf i k e ++ ((w.next e).map (messages i k · es)).getD []

end World

variable {l l' : Link} {c : Clock} {t : TreeWait} {r : TreeProgress} {s s' : CallState}
  {deadline : Nat} {ms : List (Nat × List String)}

/-- Whatever a wait does, its client sends nothing but the messages of the wait. -/
theorem TreeWait.sent_of_steps (h : t.Steps c l r l') :
    l'.client.sent.toList = l.client.sent.toList ++ t.sends c.now r := by
  cases h with
  | ends => exact (List.append_nil _).symm
  | arms hstage =>
      rw [sends, hstage]
      exact (List.append_nil _).symm
  | joins hstage hj =>
      obtain ⟨_, _, -, rfl⟩ := Link.joinUnlocks_eq_some hj
      rw [sends, hstage]
      exact (List.append_nil _).symm
  | joined hstage hj =>
      obtain ⟨_, _, -, rfl⟩ := Link.joinUnlocks_eq_some hj
      rw [sends, hstage]
      exact Array.toList_push
  | failed hstage hj =>
      obtain ⟨_, _, -, rfl⟩ := Link.joinUnlocks_eq_some hj
      exact (List.append_nil _).symm
  | asks hstage ha =>
      rw [(Link.ask_eq_some ha).1, sends, hstage]
      exact (List.append_nil _).symm
  | settles hstage ha =>
      rw [← (Link.ask_eq_some ha).1]
      exact (List.append_nil _).symm
  | parks hstage ha _ =>
      rw [← (Link.ask_eq_some ha).1, sends, hstage]
      exact (List.append_nil _).symm
  | wakes hstage _ =>
      rw [sends, hstage]
      exact (List.append_nil _).symm

namespace World

variable {w w' : World} {e : Event} {es : List Event} {i k : Nat} {requests : List Request}
  {wait : Option Duration}

theorem sent_of_link? (hl : w.link? i = some l) : w.sent i = l.client.sent.toList := by
  rw [sent, (link?_eq_some_iff.mp hl).1]
  rfl

/-- What the client has sent by then besides what it had sent already. -/
theorem sentUntil_eq (hl : w.link? i = some l)
    (hclients : w'.clients = w.clients.set i l'.client)
    (hsent : l'.client.sent.toList = l.client.sent.toList ++ ms) : w.sentUntil i w' = ms := by
  have hsent' : w'.sent i = l'.client.sent.toList := by
    rw [sent, hclients, List.getElem?_set_self (lt_length_of_link? hl)]
    rfl
  rw [sentUntil, hsent', sent_of_link? hl, hsent, List.drop_left]

/-- When a call begins, one message goes out at most. -/
theorem length_sentUntil_lock (hl : w.link? i = some l) :
    (w.sentUntil i (w.lock i requests wait)).length ≤ 1 := by
  have hclients : (w.lock i requests wait).clients =
      w.clients.set i (CallState.lock requests wait w.now l).2.client := by
    simp only [lock, start, hl]
    rfl
  unfold CallState.lock at hclients
  split at hclients
  · rw [sentUntil_eq hl hclients (List.append_nil _).symm]
    exact Nat.zero_le 1
  · split at hclients
    · rw [sentUntil_eq hl hclients (List.append_nil _).symm]
      exact Nat.zero_le 1
    · rw [sentUntil_eq hl hclients Array.toList_push]
      exact Nat.le_refl 1

theorem messages_cons (hn : w.next e = some w') :
    w.messages i k (e :: es) = w.messagesOf i k e ++ w'.messages i k es := by
  simp only [messages, hn, Option.map_some, Option.getD_some]

theorem messagesOf_eq_nil (h : e.isTurnOf k = false) : w.messagesOf i k e = [] := by
  rw [messagesOf, h]
  rfl

theorem messagesOf_turn (hn : w.next e = some w') (hl : w.link? i = some l)
    (hclients : w'.clients = w.clients.set i l'.client) (hturn : e.isTurnOf k = true)
    (hsent : l'.client.sent.toList = l.client.sent.toList ++ ms) : w.messagesOf i k e = ms := by
  rw [messagesOf, if_pos hturn, hn]
  exact sentUntil_eq hl hclients hsent

/-- The task that makes the call sends nothing. -/
theorem messagesOf_call (hn : w.next (.turn (.call k)) = some w') (hl : w.link? i = some l)
    (hclients : w'.clients = w.clients.set i l'.client) (hs : s.step c l = some (s', l')) :
    w.messagesOf i k (.turn (.call k)) = [] := by
  obtain ⟨_, _, hclient⟩ := CallState.client_of_step hs
  apply messagesOf_turn hn hl hclients (beq_self_eq_true _)
  rw [hclient, List.append_nil]

end World

end LeasedLocks
