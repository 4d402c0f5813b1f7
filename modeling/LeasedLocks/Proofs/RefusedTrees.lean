import LeasedLocks.Proofs.GoodTickets
import LeasedLocks.Proofs.Settling

/-!
# Calls that still have time

Before its time is over, a call of which some tree was refused goes on waiting for this
tree: whoever waits gives up only because it failed, because its tickets are void, or
because the time is over (`TreeWait.ended_cases`). `CallState.WaitsForRefused` says so of every
state in which a call can be, and is kept by all that happens to the call.

## Implementation notes

That a tree was refused is read off the replies that the call holds. What was sent in the
meantime is counted apart, as the petitions that the call has made.
-/

namespace LeasedLocks

/-- Where a call stands that still has time to wait for at most `d`: every tree that was
refused is waited for, with tickets that are good. -/
inductive CallState.WaitsForRefused (requests : List Request) (d : Duration) (now : Nat)
    (ps : List Petition) (l : Link) : CallState → Prop where
  | asking {x : Exchange (List Reply)} :
      WaitsForRefused requests d now ps l (.locking requests (some d) (.asking x))
  | waiting {first : Nat} {replies : List Reply} {branches : List Branch}
      {failure : Option Fault} : now < first + d.ceilMillis →
      (∀ t ∈ branches.filterMap Branch.wait, ∀ k ∈ t.tickets, ¬ l.IsVoid k) →
      (failure = none → ∀ {n : Nat} {reply : Reply}, replies[n]? = some reply →
        reply.isGranted = false → ∃ t, (⟨n, some t⟩ : Branch) ∈ branches) →
      WaitsForRefused requests d now ps l
        (.locking requests (some d) (.waiting first d replies branches failure))
  /-- The call is over before its time, because all trees are granted or because it
  failed. -/
  | returned {moment : Nat} {result : CallResult} :
      (∀ o, result = .locked (.ok o) → ∀ n, n < requests.length →
        Petition.grants ps n ≠ []) →
      WaitsForRefused requests d now ps l (.returned moment result)
  | cancelled : WaitsForRefused requests d now ps l .cancelled

variable {ps qs : List Petition} {n : Nat} {q r : Request} {reply : Reply} {c : Clock}
  {l l' : Link} {t : TreeWait} {now : Nat} {s s' : CallState} {requests : List Request}
  {replies : List Reply} {d : Duration} {branches : List Branch} {failure : Option Fault}

/-! ## How a wait ends -/

/-- A wait that ends has failed, was granted its tree, is out of time or holds a ticket
that is void. -/
theorem TreeWait.ended_cases {deadline : Nat} {result : Except Fault (Option Reply)}
    (h : t.step c deadline l = some (.ended result, l')) :
    (∃ e, result = .error e) ∨ (∃ reply, result = .ok (some reply) ∧ reply.isGranted = true) ∨
      deadline ≤ c.now ∨
        t.stage = .parked ∧ allFreed? l.client.unlocks.list t.blocking = some false := by
  have hlate {t : TreeWait} (h : t.timeUp c.now deadline l = some (.ended result, l')) :
      deadline ≤ c.now := (Option.ite_none_right_eq_some.mp h).1
  unfold step at h
  split at h
  · split at h
    · next hle => exact .inr (.inr (.inl hle))
    · cases h
  · split at h
    · exact .inr (.inr (.inl (hlate h)))
    · cases h
    · cases h
    · cases h
      exact .inl ⟨_, rfl⟩
  · split at h
    · exact .inr (.inr (.inl (hlate h)))
    · cases h
    · have hanswered := Option.some.inj h
      rcases t.answered_cases _ _ _ with
        ⟨e, heq⟩ | ⟨_, _, -, -, -, ⟨hgranted, heq⟩ | ⟨-, heq⟩⟩
      · cases heq.symm.trans hanswered
        exact .inl ⟨_, rfl⟩
      · cases heq.symm.trans hanswered
        exact .inr (.inl ⟨_, rfl, hgranted⟩)
      · cases heq.symm.trans hanswered
    · cases h
      exact .inl ⟨_, rfl⟩
  · next hstage =>
      split at h
      · cases h
      · next hvoid => exact .inr (.inr (.inr ⟨hstage, hvoid⟩))
      · exact .inr (.inr (.inl (hlate h)))

theorem AllSettled.grants_ne_nil (h : AllSettled ps requests replies)
    (hgranted : ∀ {n : Nat} {reply : Reply}, replies[n]? = some reply → reply.isGranted = true)
    (hn : n < requests.length) : Petition.grants ps n ≠ [] := by
  have hreply := List.getElem?_eq_getElem (h.length_eq ▸ hn)
  obtain ⟨p, -, -, hgrants⟩ := h.settled (List.getElem?_eq_getElem hn) hreply
  rw [hgrants, hgranted hreply]
  exact List.cons_ne_nil p []

namespace CallState

/-- Whoever was refused a tree waits for it. -/
theorem exists_mem_branchesOf (hlength : replies.length = requests.length)
    (hreply : replies[n]? = some reply) (hrefused : reply.isGranted = false) :
    ∃ t, (⟨n, some t⟩ : Branch) ∈ branchesOf requests replies := by
  have hn := (List.getElem?_eq_some_iff.mp hreply).1
  have hq := List.getElem?_eq_getElem (hlength ▸ hn)
  refine ⟨{ request := requests[n] }, List.mem_map.mpr ⟨((requests[n], reply), n), ?_, rfl⟩⟩
  refine List.mem_filter.mpr ⟨?_, ?_⟩
  · exact List.mem_zipIdx_iff_getElem?.mpr (List.getElem?_zip_eq_some.mpr ⟨hq, hreply⟩)
  · rw [hrefused]
    rfl

theorem WaitsForRefused.append (h : s.WaitsForRefused requests d now ps l) :
    s.WaitsForRefused requests d now (ps ++ qs) l := by
  cases h with
  | asking => exact .asking
  | waiting hlt hgood hcovered => exact .waiting hlt hgood hcovered
  | returned hall =>
      refine .returned fun o ho n hn hnil => hall o ho n hn ?_
      rw [Petition.grants_append] at hnil
      exact (List.append_eq_nil_iff.mp hnil).1
  | cancelled => exact .cancelled

theorem waitsForRefused_answered (hd : 0 < d.ceilMillis) (h : AllSettled ps requests replies)
    (l : Link) :
    (answered requests (some d) now (.ok replies)).WaitsForRefused requests d now ps l := by
  simp only [answered, Except.bind, checkReplies_of_fits h.fits]
  split
  · next hnil =>
      refine .returned fun _ _ n hn => h.grants_ne_nil (fun {m reply} hreply => ?_) hn
      cases hgranted : reply.isGranted with
      | true => rfl
      | false =>
          obtain ⟨t, ht⟩ := exists_mem_branchesOf h.length_eq hreply hgranted
          rw [hnil] at ht
          cases ht
  · refine .waiting (Nat.lt_add_of_pos_right hd) ?_ fun _ => exists_mem_branchesOf h.length_eq
    intro t ht k hk
    obtain ⟨b, hb, hwait⟩ := List.mem_filterMap.mp ht
    rw [(Link.tickets_of_isFresh (isFresh_of_mem_branchesOf hb hwait)).1] at hk
    cases hk

/-- A turn of the task that makes the call. -/
theorem WaitsForRefused.step {k : Nat} (h : s.WaitsForRefused requests d c.now ps l)
    (hd : 0 < d.ceilMillis) (hknows : s.Knows requests c.now ps) (hs : s.step c l = some (s', l')) :
    s'.WaitsForRefused requests d c.now
      (ps ++ l.authority.petitions (Route.date l.client.route.base c)
        (s.asks c.now (.call k))) l' := by
  cases h with
  | @asking x =>
      cases hknows with
      | sends hleg hdue _ =>
          simp only [CallState.step, Link.ask, Exchange.step_of_outbound hleg hdue,
            Option.map_some] at hs
          cases hs
          exact .asking
      | receives hleg hdue hall =>
          simp only [CallState.step, Link.ask, Exchange.step_of_inbound hleg hdue,
            Option.map_some] at hs
          cases hs
          exact (waitsForRefused_answered hd hall l).append
  | @waiting first replies branches failure hlt hgood hcovered =>
      cases hknows with
      | waits _ _ htracks =>
          cases steps_of_step hs with
          | finishes hover hfinish =>
              refine .append (.returned fun o ho n hn => ?_)
              rw [ho] at hfinish
              obtain ⟨hok, -⟩ := assemble_of_finish hfinish
              refine ((htracks hok).allSettled hover).grants_ne_nil (fun {m reply} hreply => ?_) hn
              cases hgranted : reply.isGranted with
              | true => rfl
              | false =>
                  obtain ⟨t, ht⟩ := hcovered hok hreply hgranted
                  cases List.all_eq_true.mp hover _ ht
  | returned _ => cases hs
  | cancelled => cases hs

/-- The trees that were refused are still waited for when one of the waits has taken a
step in time. -/
theorem exists_mem_set_of_refused {b index : Nat} {progress : TreeProgress} {deadline : Nat}
    (hlt : c.now < deadline) (hgood : ∀ k ∈ t.tickets, ¬ l.IsVoid k)
    (hb : branches[b]? = some ⟨index, some t⟩)
    (hstep : t.step c deadline l = some (progress, l')) (hok : progress.failure? = none)
    (hcovered : ∀ {n : Nat} {reply : Reply}, replies[n]? = some reply →
      reply.isGranted = false → ∃ t, (⟨n, some t⟩ : Branch) ∈ branches)
    (hreply : (progress.reply?.elim replies (replies.set index))[n]? = some reply)
    (hrefused : reply.isGranted = false) :
    ∃ t, (⟨n, some t⟩ : Branch) ∈ branches.set b ⟨index, progress.wait?⟩ := by
  by_cases hn : n = index
  · subst hn
    cases progress with
    | goesOn t' => exact ⟨t', List.mem_set (List.getElem?_eq_some_iff.mp hb).1 _⟩
    | ended result =>
        rcases TreeWait.ended_cases hstep with
          ⟨e, rfl⟩ | ⟨granted, rfl, hgranted⟩ | hlate | ⟨hstage, hvoid⟩
        · cases hok
        · -- the reply that ended the wait is the one that counts
          rcases eq_of_getElem?_elim_set hreply with hcounts | ⟨hnone, -⟩
          · cases hcounts
            exact absurd (hgranted.symm.trans hrefused) nofun
          · cases hnone
        · exact absurd hlt (Nat.not_lt_of_le hlate)
        · rw [(TreeWait.books_of_parked hstage).1] at hgood
          exact absurd hvoid (TreeWait.allFreed?_ne_some_false hgood)
  · rw [getElem?_elim_set_ne hn] at hreply
    obtain ⟨u, hu⟩ := hcovered hreply hrefused
    exact ⟨u, (mem_set_of_ne hb hn).mpr hu⟩

/-- The time of a call that waits for some trees is over by `now`. -/
def IsOut (requests : List Request) (d : Duration) (now : Nat) (s : CallState) : Prop :=
  ∃ first replies branches failure,
    s = locking requests (some d) (.waiting first d replies branches failure) ∧
      first + d.ceilMillis ≤ now

/-- What somebody else does leaves a call with good tickets. -/
theorem WaitsForRefused.onward {now' : Nat} (h : s.WaitsForRefused requests d now ps l)
    (hin : ¬ s.IsOut requests d now')
    (hgood : ∀ t ∈ s.waits, ∀ k ∈ t.tickets, l'.IsVoid k → l.IsVoid k) :
    s.WaitsForRefused requests d now' ps l' := by
  cases h with
  | asking => exact .asking
  | waiting hlt hold hcovered =>
      refine .waiting (Nat.lt_of_not_le fun hle => hin ⟨_, _, _, _, rfl, hle⟩) ?_ hcovered
      exact fun t ht k hk hvoid => hold t ht k hk (hgood t ht k hk hvoid)
  | returned hall => exact .returned hall
  | cancelled => exact .cancelled

/-- A turn of whoever waits for one of the trees. -/
theorem WaitsForRefused.stepBranch {b : Nat} {ts : List TreeWait}
    (h : s.WaitsForRefused requests d c.now ps l) (hserves : l.Serves ts)
    (hs : s.stepBranch c b l = some (s', l'))
    (hgood : ∀ t ∈ s'.waits, ∀ k ∈ t.tickets, l'.IsVoid k → l.IsVoid k) :
    s'.WaitsForRefused requests d c.now ps l' := by
  obtain ⟨_, _, _, _, _, branches, _, index, t, progress, rfl, hb, hstep, rfl⟩ :=
    stepBranch_eq_some hs
  cases h with
  | waiting hlt hold hcovered =>
      have hmem := List.mem_of_getElem? hb
      have ht := hold t (List.mem_filterMap.mpr ⟨_, hmem, rfl⟩)
      refine .waiting hlt ?_ fun hok => ?_
      · intro u hu k hk hvoid
        have hvoid' := hgood u hu k hk hvoid
        obtain ⟨b', hb', hwait⟩ := List.mem_filterMap.mp hu
        rcases List.mem_or_eq_of_mem_set hb' with hb' | rfl
        · exact hold u (List.mem_filterMap.mpr ⟨b', hb', hwait⟩) k hk hvoid'
        · have hnew := TreeWait.not_isVoid_of_steps hserves (TreeWait.steps_of_step hstep) ht
          refine hnew u ?_ k hk hvoid'
          cases progress with
          | goesOn t' =>
              cases hwait
              exact List.mem_cons_self
          | ended result => cases hwait
      · obtain ⟨hnone, hok⟩ := Option.or_eq_none_iff.mp hok
        exact exists_mem_set_of_refused hlt ht hb hstep hok (hcovered hnone)

/-- Whoever gives up a call waits no more. -/
theorem waitsForRefused_cancel (h : s.WaitsForRefused requests d now ps l) :
    (s.cancel l).1.WaitsForRefused requests d now ps (s.cancel l).2 := by
  cases h with
  | asking => exact .cancelled
  | waiting _ _ _ => exact .cancelled
  | returned hall => exact .returned hall
  | cancelled => exact .cancelled

end CallState

end LeasedLocks
