import LeasedLocks.Proofs.UnlockWatch
import LeasedLocks.UnlockWatch.Session

/-!
# Subscribers of one watch

Subscribers come, open the stream, succeed or fail, and go, and none of the others
notices it (`UnlockSession.Quiet`).

## Implementation notes

`UnlockSession.Attends` looks at the subscriptions up to order. Every change deals
with one subscription, which is brought to the front and taken off there.
-/

namespace LeasedLocks

/-- How many openings a subscriber is busy with. -/
def Subscription.openings : Subscription → Nat
  | opening _ j => j.openings
  | _ => 0

/-- The tickets of a subscriber whose subscription succeeded. -/
def Subscription.confirmed : Subscription → List Ticket
  | ready ts => ts.filterMap id
  | _ => []

namespace UnlockSession

/-- The tickets that these subscribers hold. -/
def ticketsOf (l : List (String × Subscription)) : List Ticket := l.flatMap (·.2.tickets)

/-- Those of their tickets whose subscription succeeded. -/
def confirmedOf (l : List (String × Subscription)) : List Ticket := l.flatMap (·.2.confirmed)

/-- How many openings these subscribers are busy with. -/
def openingsOf (l : List (String × Subscription)) : Nat := (l.map (·.2.openings)).sum

/-- A watch that serves these subscribers and lets none of those who succeeded
wait in vain. -/
structure Attends (w : UnlockWatch) (freed : Channel (List String))
    (l : List (String × Subscription)) : Prop where
  serves : w.Serves freed (ticketsOf l) (openingsOf l)
  assured : ∀ t ∈ confirmedOf l, w.Assured t

variable {w w' : UnlockWatch} {freed : Channel (List String)} {name : String}
  {l l' : List (String × Subscription)} {x : Subscription} {ts : List Ticket} {t : Ticket}
  {j : Joining} {r : Joined} {now : Nat} {src src' : Source}

/-! ## Subscribers one by one -/

@[simp] theorem ticketsOf_cons (p : String × Subscription) (l : List (String × Subscription)) :
    ticketsOf (p :: l) = p.2.tickets ++ ticketsOf l := rfl

@[simp] theorem confirmedOf_cons (p : String × Subscription)
    (l : List (String × Subscription)) :
    confirmedOf (p :: l) = p.2.confirmed ++ confirmedOf l := rfl

@[simp] theorem openingsOf_cons (p : String × Subscription) (l : List (String × Subscription)) :
    openingsOf (p :: l) = p.2.openings + openingsOf l := by
  simp [openingsOf]

theorem openingsOf_cons_of_eq_zero (name : String) (h : x.openings = 0) :
    openingsOf ((name, x) :: l) = openingsOf l := by
  rw [openingsOf_cons, h, Nat.zero_add]

theorem confirmed_subset_tickets (x : Subscription) : x.confirmed ⊆ x.tickets := by
  cases x with
  | opening ts j => exact List.nil_subset _
  | failed e => exact List.nil_subset _
  | ready ts => exact fun t ht => ht

theorem confirmedOf_subset_ticketsOf (l : List (String × Subscription)) :
    confirmedOf l ⊆ ticketsOf l := by
  induction l with
  | nil => exact List.nil_subset _
  | cons p l ih =>
      intro t ht
      rcases List.mem_append.mp ht with ht | ht
      · exact List.mem_append_left _ (confirmed_subset_tickets p.2 ht)
      · exact List.mem_append_right _ (ih ht)

theorem perm_ticketsOf (hp : l.Perm l') : (ticketsOf l).Perm (ticketsOf l') :=
  hp.flatMap_right _

theorem Attends.perm (h : Attends w freed l) (hp : l.Perm l') : Attends w freed l' := by
  have hopen : openingsOf l = openingsOf l' := (hp.map _).sum_nat
  constructor
  case serves => exact hopen ▸ h.serves.perm (perm_ticketsOf hp)
  case assured => exact fun t ht => h.assured t ((hp.flatMap_right _).mem_iff.mpr ht)

/-- From one watch with its subscribers to the next, without any ticket that is kept
noticing it. -/
structure Quiet (w w' : UnlockWatch) (l l' : List (String × Subscription)) : Prop where
  grows : w.list.Grows w'.list
  kept : ∀ t ∈ ticketsOf l', t.generation < w.list.nextGeneration →
    t ∈ ticketsOf l ∧ w.Undisturbed w' t

theorem Quiet.refl (w : UnlockWatch) (l : List (String × Subscription)) : Quiet w w l l :=
  ⟨.refl _, fun t ht _ => ⟨ht, .refl w t⟩⟩

theorem Quiet.trans {w'' : UnlockWatch} {l'' : List (String × Subscription)}
    (h : Quiet w w' l l') (h' : Quiet w' w'' l' l'') : Quiet w w'' l l'' := by
  refine ⟨h.grows.trans h'.grows, ?_⟩
  intro t ht hlt
  obtain ⟨ht', hund'⟩ := h'.kept t ht (Nat.lt_of_lt_of_le hlt h.grows.next_le)
  obtain ⟨ht, hund⟩ := h.kept t ht' hlt
  exact ⟨ht, hund.trans hund'⟩

theorem Quiet.perm {k k' : List (String × Subscription)} (h : Quiet w w' l l')
    (hp : k.Perm l) (hp' : k'.Perm l') : Quiet w w' k k' := by
  refine ⟨h.grows, ?_⟩
  intro t ht hlt
  obtain ⟨ht, hund⟩ := h.kept t ((perm_ticketsOf hp').mem_iff.mp ht) hlt
  exact ⟨(perm_ticketsOf hp).mem_iff.mpr ht, hund⟩

/-- Whoever is confirmed, was so before and was not disturbed is still assured. -/
theorem Attends.of_quiet (h : Attends w freed l)
    (hserves : w'.Serves freed (ticketsOf l') (openingsOf l'))
    (hconfirmed : confirmedOf l' ⊆ confirmedOf l) (hq : Quiet w w' l l') :
    Attends w' freed l' := by
  refine ⟨hserves, ?_⟩
  intro t ht
  have ht' := hconfirmed ht
  have hheld := confirmedOf_subset_ticketsOf l ht'
  obtain ⟨-, hund⟩ := hq.kept t (confirmedOf_subset_ticketsOf l' ht)
    (h.serves.accounts.held_lt t hheld)
  exact hund.assured (h.assured t ht')

/-- Somebody gives tickets back, and the others keep theirs. -/
theorem Attends.releaseAll (h : Attends w freed l) (ts : List Ticket)
    (l' : List (String × Subscription))
    (hp : (ticketsOf l).Perm (ts ++ ticketsOf l')) (hopen : openingsOf l = openingsOf l')
    (hconfirmed : confirmedOf l' ⊆ confirmedOf l) :
    Attends (w.releaseAll ts) freed l' ∧ Quiet w (w.releaseAll ts) l l' := by
  have hserves := hopen ▸ h.serves.perm hp
  have hq : Quiet w (w.releaseAll ts) l l' := by
    refine ⟨hserves.grows_releaseAll, ?_⟩
    intro t ht _
    exact ⟨hp.mem_iff.mpr (List.mem_append_right ts ht), hserves.undisturbed_releaseAll ht⟩
  exact ⟨h.of_quiet hserves.releaseAll hconfirmed hq, hq⟩

theorem Attends.register (h : Attends w freed l) (name : String) (ids : List String) :
    Attends (w.register ids).2 freed ((name, .opening (w.register ids).1 .waiting) :: l) ∧
      Quiet w (w.register ids).2 l ((name, .opening (w.register ids).1 .waiting) :: l) := by
  have hserves := h.serves.register ids
  have hq : Quiet w (w.register ids).2 l
      ((name, .opening (w.register ids).1 .waiting) :: l) := by
    refine ⟨Waitlist.grows_registerAll w.list ids, ?_⟩
    intro t ht hlt
    refine ⟨?_, w.undisturbed_register ids t⟩
    rcases List.mem_append.mp ht with ht | ht
    · exact h.serves.accounts.mem_of_mem_registerAll ht hlt
    · exact ht
  refine ⟨h.of_quiet ?_ (fun t ht => ht) hq, hq⟩
  rw [ticketsOf_cons, openingsOf_cons_of_eq_zero name rfl]
  exact hserves

/-- A step of a subscriber on the way disturbs no ticket. The subscriber is confirmed
afterwards only if the monitor runs. -/
theorem Attends.join (h : Attends w freed ((name, .opening ts j) :: l))
    (hj : w.join now freed src j = some (r, w', src')) (htickets : x.tickets = ts)
    (hopen : x.openings = r.openings) (hconfirmed : x.confirmed = [] ∨ r = .running) :
    Attends w' freed ((name, x) :: l) ∧
      Quiet w w' ((name, .opening ts j) :: l) ((name, x) :: l) := by
  have hserves := h.serves
  rw [ticketsOf_cons, openingsOf_cons] at hserves
  have hund := hserves.undisturbed_join hj
  refine ⟨⟨?_, ?_⟩, ?_, ?_⟩
  · rw [ticketsOf_cons, openingsOf_cons, htickets, hopen]
    exact hserves.join hj
  · intro t ht
    rcases hconfirmed with hnil | rfl
    · rw [confirmedOf_cons, hnil] at ht
      exact (hund t).assured (h.assured t ht)
    · exact UnlockWatch.assured_of_join hj t
  · rw [(UnlockWatch.join_eq_some hj).2]
    exact .refl _
  · intro t ht _
    rw [ticketsOf_cons, htickets] at ht
    exact ⟨ht, hund t⟩

/-- Whoever failed to join gives the tickets back. -/
theorem Attends.join_failed {f : Fault} (h : Attends w freed ((name, .opening ts j) :: l))
    (hj : w.join now freed src j = some (.failed f, w', src')) :
    Attends (w'.releaseAll ts) freed ((name, .failed f) :: l) ∧
      Quiet w (w'.releaseAll ts) ((name, .opening ts j) :: l) ((name, .failed f) :: l) := by
  obtain ⟨hw, hq⟩ := h.join (x := .opening ts .waiting) hj rfl rfl (.inl rfl)
  obtain ⟨hw', hq'⟩ := hw.releaseAll ts ((name, .failed f) :: l) (.refl _) rfl
    (fun t ht => ht)
  exact ⟨hw', hq.trans hq'⟩

/-- Whoever gives up leaves the opening to others, and has the tickets still to give back. -/
theorem Attends.stepAside (h : Attends w freed ((name, .opening ts j) :: l)) :
    Attends (w.leave j) freed ((name, .opening ts .waiting) :: l) ∧
      Quiet w (w.leave j) ((name, .opening ts j) :: l) ((name, .opening ts .waiting) :: l) := by
  have hserves := h.serves
  rw [openingsOf_cons] at hserves
  have hq : Quiet w (w.leave j) ((name, .opening ts j) :: l)
      ((name, .opening ts .waiting) :: l) :=
    ⟨.refl _, fun t ht _ => ⟨ht, hserves.undisturbed_leave t⟩⟩
  refine ⟨h.of_quiet ?_ (fun t ht => ht) hq, hq⟩
  rw [openingsOf_cons_of_eq_zero name rfl]
  exact hserves.leave

/-- Whoever gives up leaves the opening to others and gives the tickets back. -/
theorem Attends.leave (h : Attends w freed ((name, .opening ts j) :: l)) :
    Attends ((w.leave j).releaseAll ts) freed l ∧
      Quiet w ((w.leave j).releaseAll ts) ((name, .opening ts j) :: l) l := by
  obtain ⟨hw, hq⟩ := h.stepAside
  obtain ⟨hw', hq'⟩ := hw.releaseAll ts l (.refl _) (openingsOf_cons_of_eq_zero name rfl)
    (fun t ht => ht)
  exact ⟨hw', hq.trans hq'⟩

/-- A subscriber goes, whatever became of the subscription. -/
theorem Attends.drop (h : Attends w freed ((name, x) :: l)) :
    let w' := (match x with
      | .opening _ j => w.leave j
      | _ => w).releaseAll x.tickets
    Attends w' freed l ∧ Quiet w w' ((name, x) :: l) l := by
  cases x with
  | opening ts j => exact h.leave
  | failed f =>
      exact h.releaseAll _ l (.refl _) (openingsOf_cons_of_eq_zero name rfl) (fun t ht => ht)
  | ready ts =>
      exact h.releaseAll _ l (.refl _) (openingsOf_cons_of_eq_zero name rfl)
        (fun t ht => List.mem_append_right _ ht)

/-- The places of a subscriber, before and after one of them is emptied. -/
theorem perm_filterMap_set_none (ts : List (Option Ticket)) (k : Nat) :
    (ts.filterMap id).Perm (ts[k]?.toList.filterMap id ++ (ts.set k none).filterMap id) := by
  cases hk : ts[k]? with
  | none =>
      rw [List.set_eq_of_length_le (List.getElem?_eq_none_iff.mp hk)]
      exact .refl _
  | some o =>
      obtain ⟨hlt, rfl⟩ := List.getElem?_eq_some_iff.mp hk
      have hrest := (List.set_perm_cons_eraseIdx hlt none).filterMap id
      have hall := (List.getElem_cons_eraseIdx_perm hlt).filterMap id
      calc
        List.Perm (ts.filterMap id) ((ts[k] :: ts.eraseIdx k).filterMap id) := hall.symm
        _ = [ts[k]].filterMap id ++ (ts.eraseIdx k).filterMap id :=
          List.filterMap_append (l := [ts[k]])
        List.Perm _ ([ts[k]].filterMap id ++ (ts.set k none).filterMap id) :=
          hrest.symm.append_left _

/-- A subscriber gives one ticket back. -/
theorem Attends.dropAt {places : List (Option Ticket)}
    (h : Attends w freed ((name, .ready places) :: l)) (k : Nat) :
    let w' := w.releaseAll (Subscription.ready places[k]?.toList).tickets
    Attends w' freed ((name, .ready (places.set k none)) :: l) ∧
      Quiet w w' ((name, .ready places) :: l) ((name, .ready (places.set k none)) :: l) := by
  have hp := perm_filterMap_set_none places k
  apply h.releaseAll
  · rw [ticketsOf_cons, ticketsOf_cons, ← List.append_assoc]
    exact hp.append_right _
  · rw [openingsOf_cons, openingsOf_cons]
    rfl
  · intro t ht
    rcases List.mem_append.mp ht with ht | ht
    · exact List.mem_append_left _ (hp.mem_iff.mpr (List.mem_append_right _ ht))
    · exact List.mem_append_right _ ht

/-! ## Finding a subscriber -/

theorem perm_of_getElem? {p : String × Subscription} {i : Nat} (h : l[i]? = some p) :
    l.Perm (p :: l.eraseIdx i) ∧ ∀ q, (l.set i q).Perm (q :: l.eraseIdx i) := by
  obtain ⟨hlt, rfl⟩ := List.getElem?_eq_some_iff.mp h
  exact ⟨(List.getElem_cons_eraseIdx_perm hlt).symm, List.set_perm_cons_eraseIdx hlt⟩

/-- The subscriber of a name comes first, and the others are those of other names. -/
theorem perm_of_lookup (hn : (l.map Prod.fst).Nodup) (h : l.lookup name = some x) :
    l.Perm ((name, x) :: l.filter (·.1 != name)) ∧
      ∀ f : String × Subscription → String × Subscription, (∀ p, p.1 ≠ name → f p = p) →
        (l.map f).Perm (f (name, x) :: l.filter (·.1 != name)) := by
  obtain ⟨l₁, l₂, rfl, -⟩ := List.lookup_eq_some_iff.mp h
  have hne : ∀ p ∈ l₁ ++ l₂, p.1 ≠ name := by
    have hn' := (List.perm_middle.map Prod.fst).nodup_iff.mp hn
    rw [List.map_cons, List.nodup_cons] at hn'
    intro p hp hEq
    exact hn'.1 (List.mem_map.mpr ⟨p, hp, hEq⟩)
  have hfilter : (l₁ ++ (name, x) :: l₂).filter (·.1 != name) = l₁ ++ l₂ := by
    have hself : (l₁ ++ l₂).filter (·.1 != name) = l₁ ++ l₂ := by
      rw [List.filter_eq_self]
      intro p hp
      simpa using hne p hp
    rw [List.filter_append, List.filter_cons_of_neg (by simp), ← List.filter_append, hself]
  rw [hfilter]
  refine ⟨List.perm_middle, ?_⟩
  intro f hf
  have hmap : (l₁ ++ l₂).map f = l₁ ++ l₂ :=
    (List.map_congr_left fun p hp => hf p (hne p hp)).trans (List.map_id _)
  rw [← hmap]
  simp only [List.map_append, List.map_cons]
  exact List.perm_middle

end UnlockSession

end LeasedLocks
