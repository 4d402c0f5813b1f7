import LeasedLocks.Proofs.Outcome
import LeasedLocks.Proofs.Timely

/-!
# The waiting time is a limit

A call that waits for locks asks for all trees once, and from the moment at which it is
answered it waits at most as long as its caller allows, whatever becomes of its messages
and of the stream that it needs.
-/

namespace LeasedLocks

namespace World

/-- In the course of these events the call at place `k` learns at `moment` what became of
its first message. -/
inductive RoundTrip (k : Nat) : World → List Event → Nat → Exchanged (List Reply) → Prop where
  | ends {w : World} {es : List Event} {i : Nat} {requests : List Request}
      {wait : Option Duration} {x : Exchange (List Reply)} {l l' : Link}
      {y : Exchanged (List Reply)} :
      w.calls[k]? = some ⟨i, .locking requests wait (.asking x)⟩ → w.link? i = some l →
      l.ask w.clock requests x = some (y, l') → (∀ x', y ≠ .notYet x') →
      RoundTrip k w (.turn (.call k) :: es) w.now y
  | later {w w' : World} {e : Event} {es : List Event} {moment : Nat}
      {y : Exchanged (List Reply)} : w.next e = some w' → RoundTrip k w' es moment y →
      RoundTrip k w (e :: es) moment y

/-- In the course of these events the wait for some tree of the call at place `k` ends
because its time is up. -/
inductive TimesOut (k : Nat) : World → List Event → Prop where
  | now {w : World} {es : List Event} {i b index started : Nat} {requests : List Request}
      {wait : Option Duration} {limit : Duration} {replies : List Reply}
      {branches : List Branch} {failure : Option Fault} {t : TreeWait} {l : Link} :
      w.calls[k]? = some
        ⟨i, .locking requests wait (.waiting started limit replies branches failure)⟩ →
      branches[b]? = some ⟨index, some t⟩ → w.link? i = some l →
      t.IsLate w.clock (started + limit.ceilMillis) l →
      TimesOut k w (.turn (.branch k b) :: es)
  | later {w w' : World} {e : Event} {es : List Event} : w.next e = some w' →
      TimesOut k w' es → TimesOut k w (e :: es)

/-- In the course of these events no turn of the call at place `k` does anything at a
client. -/
def LeavesClients (k : Nat) : World → List Event → Prop
  | _, [] => True
  | w, e :: es => ∀ w', w.next e = some w' →
      (e.isTurnOf k = true → w'.clients = w.clients) ∧ LeavesClients k w' es

variable {w w' w'' : World} {e : Event} {es : List Event} {i k moment first : Nat} {call : Call}
  {l l' : Link} {requests : List Request} {d : Duration} {s s' : CallState}
  {y : Exchanged (List Reply)}

/-! ## After the end -/

theorem LeavesClients.cons (hn : w.next e = some w')
    (hclients : e.isTurnOf k = true → w'.clients = w.clients) (h : w'.LeavesClients k es) :
    w.LeavesClients k (e :: es) := by
  intro w₁ hn₁
  rw [hn] at hn₁
  cases hn₁
  exact ⟨hclients, h⟩

/-- The tasks of a call that is over do nothing any more. -/
theorem leavesClients_of_isOver (hr : Run w es w') (hcall : w.calls[k]? = some call)
    (hover : call.state.isOver = true) : w.LeavesClients k es := by
  induction hr with
  | nil w => trivial
  | cons hn _ ih =>
      obtain ⟨hcall₁, hturn⟩ := over_of_next hn hcall hover
      refine (ih hcall₁).cons hn ?_
      rw [hturn]
      exact fun h => nomatch h

theorem not_timesOut_of_isOver (hcall : w.calls[k]? = some call)
    (hover : call.state.isOver = true) : ¬ w.TimesOut k es := by
  intro h
  induction h with
  | now hwaiting =>
      rw [hcall] at hwaiting
      cases hwaiting
      cases hover
  | later hn _ ih => exact ih (over_of_next hn hcall hover).1

/-! ## With the first answer -/

/-- With the replies to all trees a call is over, or some tree was refused and is
waited for from now on. -/
theorem answered_cases (requests : List Request) (d : Duration) (now : Nat)
    (answer : Except Fault (List Reply)) :
    (∃ result, CallState.answered requests (some d) now answer = .returned now result ∧
      ∀ o, result = .locked (.ok o) → o.waited = .zero) ∨
    ∃ replies branches, answer = .ok replies ∧ (∃ reply ∈ replies, reply.isGranted = false) ∧
      CallState.answered requests (some d) now answer =
        .locking requests (some d) (.waiting now d replies branches none) := by
  rcases CallState.answered_cases requests (some d) now answer with
    ⟨e, heq⟩ | ⟨replies, rfl, -, heq | ⟨_, hd, hne, heq⟩⟩
  · exact .inl ⟨_, heq, fun o h => nomatch h⟩
  · exact .inl ⟨_, heq, fun o h => Outcome.waited_of_assemble (CallResult.locked.inj h)⟩
  · cases hd
    obtain ⟨b, hb⟩ := List.exists_mem_of_ne_nil _ hne
    obtain ⟨⟨⟨r, reply⟩, index⟩, hx, -⟩ := List.mem_map.mp hb
    obtain ⟨hx, hrefused⟩ := List.mem_filter.mp hx
    have hzip := List.getElem?_zip_eq_some.mp (List.mem_zipIdx_iff_getElem?.mp hx)
    exact .inr ⟨replies, _, rfl,
      ⟨reply, List.mem_of_getElem? hzip.2, by simpa using hrefused⟩, heq⟩

/-! ## While some trees are waited for -/

theorem nanos_le_ceilMillis (d : Duration) : d.nanos ≤ d.ceilMillis * 1000000 := by
  unfold Duration.ceilMillis
  omega

/-- What a call has become in the course of these events that waits since `first` for at
most `d`. -/
inductive WaitsAtMost (k : Nat) (d : Duration) (w : World) (es : List Event) (first now : Nat) :
    CallState → Prop where
  /-- Some trees are still waited for. -/
  | waiting {requests : List Request} {wait : Option Duration} {replies : List Reply}
      {branches : List Branch} {failure : Option Fault} : now ≤ first + d.ceilMillis →
      WaitsAtMost k d w es first now
        (.locking requests wait (.waiting first d replies branches failure))
  /-- The call returned after the time that it waited, and waited as long as it was
  allowed to if that was what ended the wait for some tree. -/
  | returned {moment : Nat} {result : CallResult} : w.now ≤ moment →
      moment ≤ first + d.ceilMillis → (w.TimesOut k es → first + d.ceilMillis ≤ moment) →
      (∀ o, result = .locked (.ok o) → o.waited = .min (.ofMillis (moment - first)) d) →
      WaitsAtMost k d w es first now (.returned moment result)
  | cancelled : WaitsAtMost k d w es first now .cancelled

/-- What ends a wait because its time is up happens now or later. -/
theorem le_now_or_timesOut {wait : Option Duration} {replies : List Reply}
    {branches : List Branch} {failure : Option Fault} (hn : w.next e = some w')
    (hcall : w.calls[k]? =
      some ⟨i, .locking requests wait (.waiting first d replies branches failure)⟩)
    (h : w.TimesOut k (e :: es)) : first + d.ceilMillis ≤ w.now ∨ w'.TimesOut k es := by
  cases h with
  | now hwaiting _ _ hlate =>
      rw [hcall] at hwaiting
      cases hwaiting
      exact .inl hlate.1
  | later hn' hlater =>
      rw [hn] at hn'
      cases hn'
      exact .inr hlater

theorem WaitsAtMost.later {now : Nat} (h : w'.WaitsAtMost k d es first now s)
    (hnow : w.now ≤ w'.now)
    (htimes : w.TimesOut k (e :: es) → first + d.ceilMillis ≤ w.now ∨ w'.TimesOut k es) :
    w.WaitsAtMost k d (e :: es) first now s := by
  cases h with
  | waiting hle => exact .waiting hle
  | returned hge hle hout hwaited =>
      refine .returned (Nat.le_trans hnow hge) hle (fun h => ?_) hwaited
      rcases htimes h with hlate | hlater
      · exact Nat.le_trans hlate (Nat.le_trans hnow hge)
      · exact hout hlater
  | cancelled => exact .cancelled

/-- A call that waits for locks does not wait longer than it is allowed to. -/
theorem waitsAtMost_of_run (hr : w.TimelyRun k es w') (hl : w.link? i = some l)
    {wait : Option Duration} {replies : List Reply} {branches : List Branch}
    {failure : Option Fault} (hcall : w.calls[k]? =
      some ⟨i, .locking requests wait (.waiting first d replies branches failure)⟩)
    (hle : w.now ≤ first + d.ceilMillis) :
    ∃ s, w'.calls[k]? = some ⟨i, s⟩ ∧ w.WaitsAtMost k d es first w'.now s := by
  induction hr generalizing l replies branches failure with
  | nil w => exact ⟨_, hcall, .waiting hle⟩
  | @cons w w₁ w' e es hn ht hr ih =>
      have hnow := (clientsStep_of_next hn).now_le
      have hle₁ := now_le_of_isTimely hcall hl rfl hle hn ht
      have htimes : w.TimesOut k (e :: es) → first + d.ceilMillis ≤ w.now ∨ w₁.TimesOut k es :=
        le_now_or_timesOut hn hcall
      obtain ⟨l₁, hl₁, -⟩ := keepsClients_of_next hn i l hl
      rcases exists_callStep_of_next hn hcall with ⟨hsame, -⟩ | ⟨m, s₁, m₁, -, hb, hnow₁, hs₁, -⟩
      · obtain ⟨s, hs, hwaits⟩ := ih hl₁ hsame hle₁
        exact ⟨s, hs, hwaits.later hnow htimes⟩
      · cases hb with
        | call hstep =>
            -- all waits are over, and the call returns
            cases CallState.steps_of_step hstep with
            | finishes _ hfinish =>
                refine ⟨_, over_of_run hr.run hs₁ rfl,
                  .returned (Nat.le_refl _) hle (fun h => ?_) fun o ho => ?_⟩
                · exact (htimes h).resolve_right (not_timesOut_of_isOver hs₁ rfl)
                · rw [ho] at hfinish
                  exact Outcome.waited_of_assemble (CallState.assemble_of_finish hfinish).2
        | branch hstep =>
            obtain ⟨_, _, _, _, _, _, _, _, _, _, hEq, -, -, rfl⟩ :=
              CallState.stepBranch_eq_some hstep
            cases hEq
            obtain ⟨s, hs, hwaits⟩ := ih hl₁ hs₁ hle₁
            exact ⟨s, hs, hwaits.later hnow htimes⟩
        | cancel => exact ⟨.cancelled, over_of_run hr.run hs₁ rfl, .cancelled⟩

/-! ## The first round trip -/

/-- What a call has become in the course of these events whose first message is answered
by `bound` and that is ready to wait for `d`. -/
inductive WithinLimits (k : Nat) (d : Duration) (w : World) (es : List Event) (bound now : Nat) :
    CallState → Prop where
  /-- The first message is not answered yet. -/
  | asking {requests : List Request} {wait : Option Duration} {x : Exchange (List Reply)} :
      now ≤ bound → WithinLimits k d w es bound now (.locking requests wait (.asking x))
  /-- The first message was answered. If all trees were granted, this is where the call
  ended, and it never touched its client. -/
  | answered {first : Nat} {y : Exchanged (List Reply)} {s : CallState} :
      w.RoundTrip k es first y → first ≤ bound → w.WaitsAtMost k d es first now s →
      (∀ replies, y = .answered (.ok replies) → (∀ reply ∈ replies, reply.isGranted = true) →
        w.LeavesClients k es ∧ ∃ result, s = .returned first result ∧
          ∀ o, result = .locked (.ok o) → o.waited = .zero) →
      WithinLimits k d w es bound now s
  | cancelled : WithinLimits k d w es bound now .cancelled

/-- A call whose trees are asked for has no wait that could end. -/
theorem timesOut_of_asking {wait : Option Duration} {x : Exchange (List Reply)}
    (hn : w.next e = some w')
    (hcall : w.calls[k]? = some ⟨i, .locking requests wait (.asking x)⟩)
    (h : w.TimesOut k (e :: es)) : w'.TimesOut k es := by
  cases h with
  | now hwaiting =>
      rw [hcall] at hwaiting
      cases hwaiting
  | later hn' hlater =>
      rw [hn] at hn'
      cases hn'
      exact hlater

theorem WithinLimits.later {wait : Option Duration} {x : Exchange (List Reply)} {bound now : Nat}
    (h : w'.WithinLimits k d es bound now s) (hn : w.next e = some w')
    (hcall : w.calls[k]? = some ⟨i, .locking requests wait (.asking x)⟩)
    (hclients : e.isTurnOf k = true → w'.clients = w.clients) :
    w.WithinLimits k d (e :: es) bound now s := by
  cases h with
  | asking hle => exact .asking hle
  | answered htrip hbound hwaits hgranted =>
      refine .answered (.later hn htrip) hbound (hwaits.later (clientsStep_of_next hn).now_le
        fun h => .inr (timesOut_of_asking hn hcall h)) ?_
      intro replies hy hall
      obtain ⟨hleaves, hend⟩ := hgranted replies hy hall
      exact ⟨hleaves.cons hn hclients, hend⟩
  | cancelled => exact .cancelled

/-- The call is over with the first answer. -/
theorem withinLimits_of_returned {wait : Option Duration} {x : Exchange (List Reply)}
    {result : CallResult} {bound : Nat}
    (hcall : w.calls[k]? = some ⟨i, .locking requests wait (.asking x)⟩)
    (htrip : w.RoundTrip k (e :: es) w.now y) (hn : w.next e = some w') (hr : Run w' es w'')
    (hcall' : w'.calls[k]? = some ⟨i, .returned w.now result⟩)
    (hclients : w'.clients = w.clients) (hle : w.now ≤ bound)
    (hzero : ∀ o, result = .locked (.ok o) → o.waited = .zero) :
    ∃ s, w''.calls[k]? = some ⟨i, s⟩ ∧ w.WithinLimits k d (e :: es) bound w''.now s := by
  have hleaves := leavesClients_of_isOver hr hcall' rfl
  refine ⟨_, over_of_run hr hcall' rfl, .answered htrip hle ?_ fun _ _ _ => ?_⟩
  · refine .returned (Nat.le_refl _) (Nat.le_add_right _ _) (fun h => ?_) fun o ho => ?_
    · exact absurd (timesOut_of_asking hn hcall h) (not_timesOut_of_isOver hcall' rfl)
    · rw [hzero o ho, Nat.sub_self]
      exact congrArg Duration.mk (Nat.zero_min _).symm
  · exact ⟨hleaves.cons hn fun _ => hclients, _, rfl, hzero⟩

/-- The call goes on with the first answer. -/
theorem withinLimits_of_answered {x : Exchange (List Reply)} {answer : Except Fault (List Reply)}
    {bound : Nat} (hl : w.link? i = some l)
    (hcall : w.calls[k]? = some ⟨i, .locking requests (some d) (.asking x)⟩)
    (htrip : w.RoundTrip k (e :: es) w.now (.answered answer)) (hn : w.next e = some w')
    (hr : w'.TimelyRun k es w'')
    (hcall' : w'.calls[k]? = some ⟨i, CallState.answered requests (some d) w.now answer⟩)
    (hclients : w'.clients = w.clients) (hnow : w'.now = w.now) (hle : w.now ≤ bound) :
    ∃ s, w''.calls[k]? = some ⟨i, s⟩ ∧ w.WithinLimits k d (e :: es) bound w''.now s := by
  rcases answered_cases requests d w.now answer with
    ⟨result, hEq, hzero⟩ | ⟨replies, branches, rfl, ⟨reply, hmem, hrefused⟩, hEq⟩
  · rw [hEq] at hcall'
    exact withinLimits_of_returned hcall htrip hn hr.run hcall' hclients hle hzero
  · rw [hEq] at hcall'
    obtain ⟨l₁, hl₁, -⟩ := keepsClients_of_next hn i l hl
    obtain ⟨s, hs, hwaits⟩ := waitsAtMost_of_run hr hl₁ hcall' (hnow ▸ Nat.le_add_right _ _)
    refine ⟨s, hs, .answered htrip hle (hwaits.later (Nat.le_of_eq hnow.symm)
      fun h => .inr (timesOut_of_asking hn hcall h)) ?_⟩
    intro replies' hy hall
    cases hy
    rw [hall reply hmem] at hrefused
    cases hrefused

/-- A call that is ready to wait keeps to its limits, whatever becomes of its messages. -/
theorem withinLimits_of_run (hr : w.TimelyRun k es w') (hl : w.link? i = some l)
    {x : Exchange (List Reply)}
    (hcall : w.calls[k]? = some ⟨i, .locking requests (some d) (.asking x)⟩)
    (hle : w.now ≤ x.deadline) :
    ∃ s, w'.calls[k]? = some ⟨i, s⟩ ∧ w.WithinLimits k d es x.deadline w'.now s := by
  induction hr generalizing l x with
  | nil w => exact ⟨_, hcall, .asking hle⟩
  | @cons w w₁ w' e es hn ht hr ih =>
      have hle₁ := now_le_of_isTimely hcall hl rfl hle hn ht
      obtain ⟨l₁, hl₁, -⟩ := keepsClients_of_next hn i l hl
      rcases exists_callStep_of_next hn hcall with
        ⟨hsame, hturn⟩ | ⟨m, s₁, m₁, hm, hb, hnow₁, hs₁, hclients, -⟩
      · obtain ⟨s, hs, hwithin⟩ := ih hl₁ hsame hle₁
        refine ⟨s, hs, hwithin.later hn hcall fun h => ?_⟩
        rw [hturn] at h
        cases h
      · rw [hl] at hm
        cases hm
        cases hb with
        | call hstep =>
            have hkept {y : Exchanged (List Reply)}
                (ha : l.ask w.clock requests x = some (y, m₁)) : w₁.clients = w.clients := by
              rw [hclients, (Link.ask_eq_some ha).1]
              obtain ⟨hlt, hEq⟩ := List.getElem?_eq_some_iff.mp (link?_eq_some_iff.mp hl).1
              rw [← hEq, List.set_getElem_self]
            rcases CallState.step_asking_eq_some hstep with
              ⟨x', ha, rfl⟩ | ⟨answer, ha, rfl⟩ | ⟨_, ha, rfl⟩
            · obtain ⟨hdeadline, -⟩ := Exchange.of_notYet (Link.ask_eq_some ha).2.2
              obtain ⟨s, hs, hwithin⟩ := ih hl₁ hs₁ (hdeadline ▸ hle₁)
              rw [hdeadline] at hwithin
              exact ⟨s, hs, hwithin.later hn hcall fun _ => hkept ha⟩
            · exact withinLimits_of_answered hl hcall (.ends hcall hl ha fun _ h => nomatch h) hn hr
                hs₁ (hkept ha) hnow₁ hle
            · exact withinLimits_of_returned hcall (.ends hcall hl ha fun _ h => nomatch h) hn
                hr.run hs₁ (hkept ha) hle fun o h => nomatch h
        | branch hstep =>
            obtain ⟨_, _, _, _, _, _, _, _, _, _, hEq, -⟩ := CallState.stepBranch_eq_some hstep
            cases hEq
        | cancel => exact ⟨.cancelled, over_of_run hr.run hs₁ rfl, .cancelled⟩

/-! ## From the beginning -/

/-- What a caller can rely on whose call at place `k` has become `s` in the course of
these events: the first answer is there by `bound`, and nothing that comes after it takes
longer than `d`. -/
structure EndsInTime (k i : Nat) (d : Duration) (w : World) (es : List Event) (bound : Nat)
    (w' : World) (s : CallState) : Prop where
  /-- The call returned at once, or it keeps to its limits. -/
  stands : (∃ result, s = .returned w.now result ∧ w.LeavesClients k es ∧
      ∀ o, result = .locked (.ok o) → o.waited = .zero) ∨
    w.WithinLimits k d es bound w'.now s
  /-- No more time is reported than the caller allows, and all of it where time ran out. -/
  waited : ∀ {moment : Nat} {o : Outcome}, s = .returned moment (.locked (.ok o)) →
    o.waited.nanos ≤ d.nanos ∧ (w.TimesOut k es → o.waited = d)
  /-- At the limit of a stage the call can go on. -/
  goesOn : ∀ {limit : Nat}, s.limit? = some limit → limit ≤ w'.now →
    ∃ task : Task, task.call? = some k ∧ w'.step task ≠ none
  /-- From there on the stage is over with the turns that its tasks have left. -/
  ends : ∀ {limit : Nat} {es' : List Event} {w'' : World}, s.limit? = some limit →
    limit ≤ w'.now → Run w' es' w'' → s.turnsLeft < es'.countP (Event.isTurnOf k) →
      ∃ s', w''.calls[k]? = some ⟨i, s'⟩ ∧ s'.stagesLeft < s.stagesLeft

theorem WaitsAtMost.waited {now : Nat} {o : Outcome}
    (h : w.WaitsAtMost k d es first now (.returned moment (.locked (.ok o)))) :
    o.waited.nanos ≤ d.nanos ∧ (w.TimesOut k es → o.waited = d) := by
  cases h with
  | returned hge hle hout hwaited =>
      have hmin := hwaited o rfl
      refine ⟨hmin ▸ Nat.min_le_right _ _, fun h => ?_⟩
      have hlate : d.nanos ≤ (moment - first) * 1000000 :=
        Nat.le_trans (nanos_le_ceilMillis d)
          (Nat.mul_le_mul_right _ (Nat.le_sub_of_add_le' (hout h)))
      rw [hmin]
      exact congrArg Duration.mk (Nat.min_eq_right hlate)

theorem WithinLimits.waited {bound now : Nat} {o : Outcome}
    (h : w.WithinLimits k d es bound now (.returned moment (.locked (.ok o)))) :
    o.waited.nanos ≤ d.nanos ∧ (w.TimesOut k es → o.waited = d) := by
  cases h with
  | answered _ _ hwaits _ => exact hwaits.waited

theorem endsInTime_of_stands {bound : Nat} (hr : Run w es w') (hl : w.link? i = some l)
    (hs : w'.calls[k]? = some ⟨i, s⟩)
    (hstands : (∃ result, s = .returned w.now result ∧ w.LeavesClients k es ∧
        ∀ o, result = .locked (.ok o) → o.waited = .zero) ∨ w.WithinLimits k d es bound w'.now s)
    (hwaited : ∀ {moment : Nat} {o : Outcome}, s = .returned moment (.locked (.ok o)) →
      o.waited.nanos ≤ d.nanos ∧ (w.TimesOut k es → o.waited = d)) :
    EndsInTime k i d w es bound w' s where
  stands := hstands
  waited := hwaited
  goesOn := by
    intro limit hlimit hle
    obtain ⟨m, hm, -⟩ := keepsClients_of_run hr i l hl
    exact exists_step_of_limit hs hm hlimit hle
  ends := fun hlimit hle hrun hturns => stagesLeft_lt_of_run hrun hs hlimit hle hturns

/-- The waiting time is a limit: from the moment at which a call is answered for the
first time it takes at most as long as its caller allows. -/
theorem endsInTime_of_lock (hl : w.link? i = some l)
    (hr : (w.lock i requests (some d)).TimelyRun w.calls.length es w') :
    (∃ l', (w.lock i requests (some d)).link? i = some l' ∧
      l'.client.unlocks = l.client.unlocks ∧ l'.client.source = l.client.source) ∧
    ∃ s, w'.calls[w.calls.length]? = some ⟨i, s⟩ ∧
      EndsInTime w.calls.length i d (w.lock i requests (some d)) es
        (w.now + l.client.settings.requestTimeout.ceilMillis) w' s := by
  have hnow : (w.lock i requests (some d)).now = w.now := now_start _
  obtain ⟨s₀, l', hcall, hl', hunlocks, hsource, hs₀⟩ := lock_cases hl requests (some d)
  refine ⟨⟨l', hl', hunlocks, hsource⟩, ?_⟩
  rcases hs₀ with ⟨result, rfl, hempty⟩ | ⟨-, rfl⟩
  · -- nothing is sent, and the call stays what it is
    have hzero : ∀ o, result = .locked (.ok o) → o.waited = .zero := by
      intro o ho
      rw [(hempty o ho).2]
      rfl
    have hs := over_of_run hr.run hcall rfl
    have hleaves := leavesClients_of_isOver hr.run hcall rfl
    refine ⟨_, hs,
      endsInTime_of_stands hr.run hl' hs (.inl ⟨result, hnow ▸ rfl, hleaves, hzero⟩) ?_⟩
    intro moment o hreturned
    cases hreturned
    exact ⟨hzero o rfl ▸ Nat.zero_le _, fun h => absurd h (not_timesOut_of_isOver hcall rfl)⟩
  · obtain ⟨s, hs, hwithin⟩ := withinLimits_of_run hr hl' hcall (hnow ▸ Nat.le_add_right _ _)
    refine ⟨s, hs, endsInTime_of_stands hr.run hl' hs (.inr hwithin) ?_⟩
    rintro moment o rfl
    exact hwithin.waited

/-- Somebody holds an object, and the messages of a client take a while. -/
def ofSlowClient : World where
  calendar := 0
  authority := (Authority.ofTable {} ∅).enact (.request (Request.of "x") 0)
  clients := [{ route := { lockScript := [{ delay := 1, replyDelay := 1 }] } }]

/-- The call asks, waits for the tree, and gives up when its time is up. -/
def waitedInVain : List Event :=
  [.wait 1 0, .turn (.call 0), .wait 2 0, .turn (.call 0)] ++
    List.replicate 5 (.turn (.branch 0 0)) ++ [.wait 4 0, .turn (.branch 0 0), .turn (.call 0)]

theorem endsInTime_of_waitedInVain : ∃ w' o,
    (ofSlowClient.lock 0 [Request.of "x"] (some ⟨1500000⟩)).TimelyRun 0 waitedInVain w' ∧
      w'.calls[0]? = some ⟨0, .returned 4 (.locked (.ok o))⟩ ∧ o.waited.nanos ≤ 1500000 := by
  have hend : ((ofSlowClient.lock 0 [Request.of "x"] (some ⟨1500000⟩)).followTimely
      waitedInVain).map (fun w => (w.calls[0]?.bind (·.state.outcome?)).map Prod.fst) =
        some (some 4) := by
    decide +kernel
  obtain ⟨w', hw, hend⟩ := Option.map_eq_some_iff.mp hend
  obtain ⟨⟨_, o⟩, hend, rfl⟩ := Option.map_eq_some_iff.mp hend
  obtain ⟨call, hcall, hreturned⟩ := Option.bind_eq_some_iff.mp hend
  have hrun : TimelyRun 0 _ waitedInVain w' := timelyRun_of_followTimely hw
  have hl : ∃ l, ofSlowClient.link? 0 = some l := exists_link?_of_lt Nat.one_pos
  obtain ⟨l, hl⟩ := hl
  obtain ⟨-, s, hs, hends⟩ := endsInTime_of_lock hl hrun
  have hs : w'.calls[0]? = some ⟨0, s⟩ := hs
  rw [hcall] at hs
  cases hs
  have hreturned := CallState.eq_of_outcome? hreturned
  exact ⟨w', o, hrun, hreturned ▸ hcall, (hends.waited hreturned).1⟩

end World

end LeasedLocks
