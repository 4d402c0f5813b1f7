import LeasedLocks.Waitlist
import Mathlib.Algebra.GroupWithZero.Nat
import Mathlib.Data.List.Perm.Basic

/-!
# The books of the waitlist

`Waitlist.Accounts` ties a waitlist to the tickets that callers hold: who is
unsettled has an entry, and an entry counts those who hold its generation. Every
operation keeps the books, and what became of a generation is never changed.

## Implementation notes

The held tickets are a list up to order: two callers who share an entry hold
equal tickets, so a set of tickets would lose the count.
-/

namespace LeasedLocks

/-- The tickets in `held`, and no others, are out. -/
structure Waitlist.Accounts (w : Waitlist) (held : List Ticket) : Prop where
  tickets_eq : w.tickets = held.length
  /-- An entry counts its tickets, of which there is one at least. -/
  count_eq : ∀ {id : String} {e : Entry}, w.entries[id]? = some e →
    e.count = held.count ⟨id, e.generation⟩
  count_pos : ∀ {id : String} {e : Entry}, w.entries[id]? = some e → 0 < e.count
  /-- Entries are unsettled. -/
  unsettled : ∀ {id : String} {e : Entry}, w.entries[id]? = some e →
    w.outcomes[e.generation]? = none
  generation_lt : ∀ {id : String} {e : Entry}, w.entries[id]? = some e →
    e.generation < w.nextGeneration
  generation_inj : ∀ {id k : String} {e f : Entry}, w.entries[id]? = some e →
    w.entries[k]? = some f → e.generation = f.generation → id = k
  settled_lt : ∀ {g : Nat} {b : Bool}, w.outcomes[g]? = some b → g < w.nextGeneration
  held_lt : ∀ t ∈ held, t.generation < w.nextGeneration
  /-- Whoever is unsettled has an entry. -/
  pending : ∀ t ∈ held, w.outcome? t = none →
    ∃ e, w.entries[t.objectId]? = some e ∧ e.generation = t.generation

/-- What was settled stays as it was settled, and generations only grow. -/
structure Waitlist.Grows (v w : Waitlist) : Prop where
  outcomes : ∀ {g : Nat} {b : Bool}, v.outcomes[g]? = some b → w.outcomes[g]? = some b
  next_le : v.nextGeneration ≤ w.nextGeneration

namespace Waitlist

variable {u v w : Waitlist} {held : List Ticket} {t : Ticket} {id : String} {e : Entry}
  {freed : Bool}

theorem Grows.refl (w : Waitlist) : w.Grows w := ⟨fun h => h, Nat.le_refl _⟩

theorem Grows.trans (huv : u.Grows v) (hvw : v.Grows w) : u.Grows w :=
  ⟨fun h => hvw.outcomes (huv.outcomes h), Nat.le_trans huv.next_le hvw.next_le⟩

theorem Grows.outcome?_eq_none (h : v.Grows w) (hw : w.outcome? t = none) :
    v.outcome? t = none := by
  cases hv : v.outcome? t with
  | none => rfl
  | some b =>
      have := h.outcomes hv
      rw [show w.outcomes[t.generation]? = none from hw] at this
      cases this

theorem Accounts.empty : Accounts {} [] := by
  constructor <;> simp

theorem Accounts.perm {held' : List Ticket} (h : w.Accounts held) (hp : held.Perm held') :
    w.Accounts held' where
  tickets_eq := by rw [h.tickets_eq, hp.length_eq]
  count_eq he := by rw [h.count_eq he, hp.count_eq]
  count_pos := h.count_pos
  unsettled := h.unsettled
  generation_lt := h.generation_lt
  generation_inj := h.generation_inj
  settled_lt := h.settled_lt
  held_lt t ht := h.held_lt t (hp.mem_iff.mpr ht)
  pending t ht := h.pending t (hp.mem_iff.mpr ht)

/-- An unsettled ticket that is held is one of those that its entry counts. -/
theorem Accounts.held_of_entry (h : w.Accounts held) (he : w.entries[id]? = some e) :
    ⟨id, e.generation⟩ ∈ held := by
  rw [← List.count_pos_iff, ← h.count_eq he]
  exact h.count_pos he

/-! ## Giving out tickets -/

theorem register_of_some (he : w.entries[id]? = some e) :
    w.register id = (⟨id, e.generation⟩,
      { w with
        entries := w.entries.insert id { e with count := e.count + 1 }
        tickets := w.tickets + 1 }) := by
  simp only [register, he]

theorem register_of_none (he : w.entries[id]? = none) :
    w.register id = (⟨id, w.nextGeneration⟩,
      { w with
        entries := w.entries.insert id ⟨w.nextGeneration, 1⟩
        tickets := w.tickets + 1
        nextGeneration := w.nextGeneration + 1 }) := by
  simp only [register, he]

@[simp] theorem objectId_register (w : Waitlist) (id : String) :
    (w.register id).1.objectId = id := by
  unfold register
  split <;> rfl

@[simp] theorem outcomes_register (w : Waitlist) (id : String) :
    (w.register id).2.outcomes = w.outcomes := by
  unfold register
  split <;> rfl

theorem grows_register (w : Waitlist) (id : String) : w.Grows (w.register id).2 := by
  refine ⟨fun h => by rw [outcomes_register]; exact h, ?_⟩
  unfold register
  split
  · exact Nat.le_refl _
  · exact Nat.le_succ _

/-- The next generation is not settled yet. -/
theorem Accounts.outcomes_next (h : w.Accounts held) : w.outcomes[w.nextGeneration]? = none := by
  cases ho : w.outcomes[w.nextGeneration]? with
  | none => rfl
  | some b => exact absurd (h.settled_lt ho) (Nat.lt_irrefl _)

/-- A new ticket is not settled yet. -/
theorem outcome?_register (h : w.Accounts held) (id : String) :
    w.outcome? (w.register id).1 = none := by
  cases he : w.entries[id]? with
  | some e =>
      rw [register_of_some he]
      exact h.unsettled he
  | none =>
      rw [register_of_none he]
      exact h.outcomes_next

/-- Whoever looks up an entry after one was filed finds that one or an older one. -/
theorem entry_cases {f : Entry} {k : String} (he : (w.entries.insert id f)[k]? = some e) :
    k = id ∧ e = f ∨ k ≠ id ∧ w.entries[k]? = some e := by
  by_cases hk : k = id
  · subst hk
    rw [Std.ExtTreeMap.getElem?_insert_self] at he
    exact .inl ⟨rfl, (Option.some.inj he).symm⟩
  · right
    rw [Std.ExtTreeMap.getElem?_insert] at he
    simp only [Std.LawfulEqCmp.compare_eq_iff_eq, if_neg (Ne.symm hk)] at he
    exact ⟨hk, he⟩

/-- An entry is filed under `id`, in place of one with its generation if there
is one. Only the tickets of this generation are more or fewer than before. -/
theorem Accounts.put (h : w.Accounts held) (id : String) (held' : List Ticket) {g n : Nat}
    (hnext : w.nextGeneration ≤ n) (hlt : g < n)
    (hold : ∀ e, w.entries[id]? = some e → e.generation = g)
    (hown : ∀ k e, w.entries[k]? = some e → e.generation = g → k = id)
    (hun : w.outcomes[g]? = none) (hpos : 0 < held'.count ⟨id, g⟩)
    (hrest : ∀ t : Ticket, t ≠ ⟨id, g⟩ → held'.count t = held.count t) :
    Accounts
      { w with
        entries := w.entries.insert id ⟨g, held'.count ⟨id, g⟩⟩
        tickets := held'.length
        nextGeneration := n } held' := by
  have hmem : ∀ t ∈ held', t = ⟨id, g⟩ ∨ t ∈ held := by
    intro t ht
    by_cases he : t = ⟨id, g⟩
    · exact .inl he
    · right
      rw [← List.count_pos_iff, ← hrest t he]
      exact List.count_pos_iff.mpr ht
  constructor
  case tickets_eq => rfl
  case count_eq =>
    intro k e he
    rcases entry_cases he with ⟨rfl, rfl⟩ | ⟨hk, he⟩
    · rfl
    · rw [h.count_eq he, hrest]
      intro hEq
      exact hk (congrArg Ticket.objectId hEq)
  case count_pos =>
    intro k e he
    rcases entry_cases he with ⟨rfl, rfl⟩ | ⟨-, he⟩
    · exact hpos
    · exact h.count_pos he
  case unsettled =>
    intro k e he
    rcases entry_cases he with ⟨rfl, rfl⟩ | ⟨-, he⟩
    · exact hun
    · exact h.unsettled he
  case generation_lt =>
    intro k e he
    rcases entry_cases he with ⟨rfl, rfl⟩ | ⟨-, he⟩
    · exact hlt
    · exact Nat.lt_of_lt_of_le (h.generation_lt he) hnext
  case generation_inj =>
    intro k l e f he hf hEq
    rcases entry_cases he with ⟨rfl, rfl⟩ | ⟨-, he'⟩
    · rcases entry_cases hf with ⟨rfl, rfl⟩ | ⟨-, hf'⟩
      · rfl
      · exact (hown l f hf' hEq.symm).symm
    · rcases entry_cases hf with ⟨rfl, rfl⟩ | ⟨-, hf'⟩
      · exact hown k e he' hEq
      · exact h.generation_inj he' hf' hEq
  case settled_lt => exact fun ho => Nat.lt_of_lt_of_le (h.settled_lt ho) hnext
  case held_lt =>
    intro t ht
    rcases hmem t ht with rfl | ht
    · exact hlt
    · exact Nat.lt_of_lt_of_le (h.held_lt t ht) hnext
  case pending =>
    intro t ht ho
    rcases hmem t ht with rfl | ht
    · exact ⟨_, Std.ExtTreeMap.getElem?_insert_self, rfl⟩
    · obtain ⟨e, he, hg⟩ := h.pending t ht ho
      by_cases hk : id = t.objectId
      · subst hk
        exact ⟨_, Std.ExtTreeMap.getElem?_insert_self, (hold e he).symm.trans hg⟩
      · refine ⟨e, ?_, hg⟩
        simp [Std.ExtTreeMap.getElem?_insert, hk, he]

/-- More or fewer tickets of an entry are out. -/
theorem Accounts.recount (h : w.Accounts held) (he : w.entries[id]? = some e)
    (held' : List Ticket) (hpos : 0 < held'.count ⟨id, e.generation⟩)
    (hrest : ∀ t : Ticket, t ≠ ⟨id, e.generation⟩ → held'.count t = held.count t) :
    Accounts
      { w with
        entries := w.entries.insert id ⟨e.generation, held'.count ⟨id, e.generation⟩⟩
        tickets := held'.length } held' := by
  apply h.put id held' (Nat.le_refl _) (h.generation_lt he)
  · intro f hf
    rw [he] at hf
    cases hf
    rfl
  · exact fun k f hf hEq => h.generation_inj hf he hEq
  · exact h.unsettled he
  · exact hpos
  · exact hrest

theorem Accounts.register (h : w.Accounts held) (id : String) :
    (w.register id).2.Accounts ((w.register id).1 :: held) := by
  cases he : w.entries[id]? with
  | some e =>
      have hput := h.recount he (⟨id, e.generation⟩ :: held)
        (by rw [List.count_cons_self]; exact Nat.succ_pos _)
        (fun t ht => List.count_cons_of_ne ht.symm)
      rw [List.count_cons_self, ← h.count_eq he, List.length_cons, ← h.tickets_eq] at hput
      rw [register_of_some he]
      exact hput
  | none =>
      have hfresh : held.count ⟨id, w.nextGeneration⟩ = 0 := by
        rw [List.count_eq_zero]
        intro ht
        exact absurd (h.held_lt _ ht) (Nat.lt_irrefl _)
      have hput := h.put id (⟨id, w.nextGeneration⟩ :: held) (Nat.le_succ _)
        (Nat.lt_succ_self _) (fun f hf => by rw [he] at hf; cases hf)
        (fun k f hf hEq => absurd (hEq ▸ h.generation_lt hf) (Nat.lt_irrefl _))
        h.outcomes_next
        (by rw [List.count_cons_self]; exact Nat.succ_pos _)
        (fun t ht => List.count_cons_of_ne ht.symm)
      rw [List.count_cons_self, hfresh, List.length_cons, ← h.tickets_eq] at hput
      rw [register_of_none he]
      exact hput

theorem objectId_registerAll (w : Waitlist) (ids : List String) :
    (w.registerAll ids).1.map Ticket.objectId = ids := by
  induction ids generalizing w with
  | nil => rfl
  | cons id ids ih =>
      simp only [registerAll, List.map_cons, objectId_register, ih]

theorem outcomes_registerAll (w : Waitlist) (ids : List String) :
    (w.registerAll ids).2.outcomes = w.outcomes := by
  induction ids generalizing w with
  | nil => rfl
  | cons id ids ih =>
      simp only [registerAll, ih, outcomes_register]

theorem grows_registerAll (w : Waitlist) (ids : List String) :
    w.Grows (w.registerAll ids).2 := by
  induction ids generalizing w with
  | nil => exact .refl w
  | cons id ids ih => exact (grows_register w id).trans (ih _)

theorem Accounts.registerAll (h : w.Accounts held) (ids : List String) :
    (w.registerAll ids).2.Accounts ((w.registerAll ids).1 ++ held) := by
  induction ids generalizing w held with
  | nil => exact h
  | cons id ids ih => exact (ih (h.register id)).perm List.perm_middle

/-- No new ticket is settled yet. -/
theorem outcome?_registerAll (h : w.Accounts held) (ids : List String) :
    ∀ t ∈ (w.registerAll ids).1, w.outcome? t = none := by
  induction ids generalizing w held with
  | nil => simp [Waitlist.registerAll]
  | cons id ids ih =>
      intro t ht
      rcases List.mem_cons.mp ht with rfl | ht
      · exact outcome?_register h id
      · have := ih (h.register id) t ht
        rwa [outcome?, outcomes_register] at this

/-- A ticket that is not of a new generation is already held by somebody. -/
theorem Accounts.mem_of_register (h : w.Accounts held)
    (hlt : (w.register id).1.generation < w.nextGeneration) : (w.register id).1 ∈ held := by
  cases he : w.entries[id]? with
  | some e =>
      rw [register_of_some he]
      exact h.held_of_entry he
  | none =>
      rw [register_of_none he] at hlt
      exact absurd hlt (Nat.lt_irrefl _)

theorem Accounts.mem_of_mem_registerAll (h : w.Accounts held) {ids : List String}
    (ht : t ∈ (w.registerAll ids).1) (hlt : t.generation < w.nextGeneration) : t ∈ held := by
  induction ids generalizing w held with
  | nil => cases ht
  | cons id ids ih =>
      rcases List.mem_cons.mp ht with rfl | ht
      · exact h.mem_of_register hlt
      · have hnext := (grows_register w id).next_le
        have := ih (h.register id) ht (Nat.lt_of_lt_of_le hlt hnext)
        rcases List.mem_cons.mp this with rfl | hmem
        · exact h.mem_of_register hlt
        · exact hmem

/-! ## Settling entries -/

theorem settle_of_some (he : w.entries[id]? = some e) (freed : Bool) :
    w.settle freed id =
      { w with
        entries := w.entries.erase id
        outcomes := w.outcomes.insert e.generation freed } := by
  simp only [settle, he]

theorem settle_of_none (he : w.entries[id]? = none) (freed : Bool) :
    w.settle freed id = w := by
  simp only [settle, he]

/-- Settling touches the tickets of one entry, and none that was settled. -/
theorem outcome?_settle (w : Waitlist) (freed : Bool) (id : String) (t : Ticket) :
    (w.settle freed id).outcome? t =
      if ∃ e, w.entries[id]? = some e ∧ e.generation = t.generation then some freed
      else w.outcome? t := by
  cases he : w.entries[id]? with
  | none => simp [settle_of_none he]
  | some e =>
      rw [settle_of_some he]
      simp [outcome?, Std.ExtTreeMap.getElem?_insert]

theorem Accounts.settle (h : w.Accounts held) (freed : Bool) (id : String) :
    (w.settle freed id).Accounts held := by
  cases he : w.entries[id]? with
  | none => rwa [settle_of_none he]
  | some e =>
      rw [settle_of_some he]
      have hget (k : String) : (w.entries.erase id)[k]? =
          if id = k then none else w.entries[k]? := by
        simp [Std.ExtTreeMap.getElem?_erase]
      have hout (g : Nat) : (w.outcomes.insert e.generation freed)[g]? =
          if e.generation = g then some freed else w.outcomes[g]? := by
        simp [Std.ExtTreeMap.getElem?_insert]
      have hentry : ∀ {k : String} {f : Entry}, (w.entries.erase id)[k]? = some f →
          id ≠ k ∧ w.entries[k]? = some f := by
        intro k f hf
        rw [hget] at hf
        split at hf
        · cases hf
        · next hk => exact ⟨hk, hf⟩
      constructor
      case tickets_eq => exact h.tickets_eq
      case count_eq => exact fun hf => h.count_eq (hentry hf).2
      case count_pos => exact fun hf => h.count_pos (hentry hf).2
      case unsettled =>
        intro k f hf
        obtain ⟨hk, hf⟩ := hentry hf
        rw [hout, if_neg fun hEq => hk (h.generation_inj he hf hEq)]
        exact h.unsettled hf
      case generation_lt => exact fun hf => h.generation_lt (hentry hf).2
      case generation_inj =>
        exact fun hf hg hEq => h.generation_inj (hentry hf).2 (hentry hg).2 hEq
      case settled_lt =>
        intro g b hg
        rw [hout] at hg
        split at hg
        · next hEq => exact hEq ▸ h.generation_lt he
        · exact h.settled_lt hg
      case held_lt => exact h.held_lt
      case pending =>
        intro t ht ho
        rw [outcome?, hout] at ho
        split at ho
        · cases ho
        · next hEq =>
            obtain ⟨f, hf, hg⟩ := h.pending t ht ho
            refine ⟨f, ?_, hg⟩
            rw [hget, if_neg, hf]
            rintro rfl
            rw [he] at hf
            cases hf
            exact hEq hg

theorem Accounts.grows_settle (h : w.Accounts held) (freed : Bool) (id : String) :
    w.Grows (w.settle freed id) := by
  cases he : w.entries[id]? with
  | none => rw [settle_of_none he]; exact .refl w
  | some e =>
      rw [settle_of_some he]
      refine ⟨?_, Nat.le_refl _⟩
      intro g b hg
      simp only [Std.ExtTreeMap.getElem?_insert, Std.LawfulEqCmp.compare_eq_iff_eq]
      rw [if_neg, hg]
      rintro rfl
      rw [h.unsettled he] at hg
      cases hg

/-- Whoever holds an unsettled ticket for `id` learns that it is settled. -/
theorem Accounts.outcome?_settle_of_held (h : w.Accounts held) (ht : t ∈ held)
    (freed : Bool) (id : String) :
    (w.settle freed id).outcome? t =
      if w.outcome? t = none ∧ t.objectId = id then some freed else w.outcome? t := by
  rw [outcome?_settle]
  congr 1
  rw [eq_iff_iff]
  constructor
  · rintro ⟨e, he, hg⟩
    have ho : w.outcome? t = none := by rw [outcome?, ← hg]; exact h.unsettled he
    obtain ⟨f, hf, hfg⟩ := h.pending t ht ho
    exact ⟨ho, h.generation_inj hf he (hfg.trans hg.symm)⟩
  · rintro ⟨ho, rfl⟩
    exact h.pending t ht ho

theorem Accounts.settleAll (h : w.Accounts held) (freed : Bool) (ids : List String) :
    (w.settleAll freed ids).Accounts held := by
  induction ids generalizing w with
  | nil => exact h
  | cons id ids ih => exact ih (h.settle freed id)

theorem Accounts.grows_settleAll (h : w.Accounts held) (freed : Bool) (ids : List String) :
    w.Grows (w.settleAll freed ids) := by
  induction ids generalizing w with
  | nil => exact .refl w
  | cons id ids ih => exact (h.grows_settle freed id).trans (ih (h.settle freed id))

/-- Whoever holds an unsettled ticket for one of `ids` learns that it is settled. -/
theorem Accounts.outcome?_settleAll_of_held (h : w.Accounts held) (ht : t ∈ held)
    (freed : Bool) (ids : List String) :
    (w.settleAll freed ids).outcome? t =
      if w.outcome? t = none ∧ t.objectId ∈ ids then some freed else w.outcome? t := by
  induction ids generalizing w with
  | nil => simp [Waitlist.settleAll]
  | cons id ids ih =>
      change ((w.settle freed id).settleAll freed ids).outcome? t = _
      rw [ih (h.settle freed id), h.outcome?_settle_of_held ht]
      by_cases hid : t.objectId = id
      · cases ho : w.outcome? t <;> simp [hid]
      · simp [hid]

/-- All entries together are all that is unsettled. -/
theorem Accounts.outcome?_settle_pendingIds (h : w.Accounts held) (ht : t ∈ held)
    (freed : Bool) :
    (w.settleAll freed w.pendingIds).outcome? t = some ((w.outcome? t).getD freed) := by
  rw [h.outcome?_settleAll_of_held ht]
  cases ho : w.outcome? t with
  | some b => simp
  | none =>
      obtain ⟨e, he, -⟩ := h.pending t ht ho
      have hmem : t.objectId ∈ w.pendingIds := by
        rw [pendingIds, Std.ExtTreeMap.mem_keys, Std.ExtTreeMap.mem_iff_isSome_getElem?, he]
        rfl
      simp [hmem]

/-! ## Taking tickets back -/

theorem release_cases (w : Waitlist) (t : Ticket) :
    (∃ e, w.entries[t.objectId]? = some e ∧ e.generation = t.generation ∧ 1 < e.count ∧
      w.release t =
        { w with
          entries := w.entries.insert t.objectId ⟨e.generation, e.count - 1⟩
          tickets := w.tickets - 1 }) ∨
    (∃ e, w.entries[t.objectId]? = some e ∧ e.generation = t.generation ∧ e.count ≤ 1 ∧
      w.release t = { w.settle false t.objectId with tickets := w.tickets - 1 }) ∨
    ((∀ e, w.entries[t.objectId]? = some e → e.generation ≠ t.generation) ∧
      w.release t = { w with tickets := w.tickets - 1 }) := by
  cases he : w.entries[t.objectId]? with
  | none => exact .inr (.inr ⟨by simp, by simp [release, he]⟩)
  | some e =>
      by_cases hg : e.generation = t.generation
      · by_cases hc : e.count ≤ 1
        · refine .inr (.inl ⟨e, rfl, hg, hc, ?_⟩)
          simp [release, he, hg, hc, settle]
        · refine .inl ⟨e, rfl, hg, Nat.lt_of_not_le hc, ?_⟩
          simp [release, he, hg, hc]
      · exact .inr (.inr ⟨by simpa using hg, by simp [release, he, hg]⟩)

/-- A settled ticket is in no entry's count. -/
theorem Accounts.drop (h : w.Accounts (t :: held)) (ho : w.outcome? t ≠ none) :
    Accounts { w with tickets := w.tickets - 1 } held where
  tickets_eq := by
    change w.tickets - 1 = held.length
    rw [h.tickets_eq, List.length_cons, Nat.add_sub_cancel]
  count_eq := by
    intro id e he
    rw [h.count_eq he, List.count_cons_of_ne]
    rintro rfl
    exact ho (h.unsettled he)
  count_pos := h.count_pos
  unsettled := h.unsettled
  generation_lt := h.generation_lt
  generation_inj := h.generation_inj
  settled_lt := h.settled_lt
  held_lt k hk := h.held_lt k (List.mem_cons_of_mem _ hk)
  pending k hk := h.pending k (List.mem_cons_of_mem _ hk)

theorem Accounts.release (h : w.Accounts (t :: held)) : (w.release t).Accounts held := by
  have ht : t ∈ t :: held := List.mem_cons_self
  rcases release_cases w t with ⟨e, he, hg, hc, hr⟩ | ⟨e, he, hg, -, hr⟩ | ⟨hne, hr⟩
  · have hself : (⟨t.objectId, e.generation⟩ : Ticket) = t := by rw [hg]
    have hcount := h.count_eq he
    rw [hself, List.count_cons_self] at hcount
    have hput := h.recount he held (by rw [hself]; omega)
      (fun k hk => (List.count_cons_of_ne (hself ▸ hk.symm)).symm)
    have hless : held.count t = e.count - 1 := by omega
    have hlen : held.length = w.tickets - 1 := by
      rw [h.tickets_eq, List.length_cons, Nat.add_sub_cancel]
    rw [hself, hless, hlen] at hput
    rw [hr]
    exact hput
  · have hs := h.settle false t.objectId
    have ho : (w.settle false t.objectId).outcome? t ≠ none := by
      rw [outcome?_settle, if_pos ⟨e, he, hg⟩]
      simp
    have htickets : (w.settle false t.objectId).tickets = w.tickets := by
      rw [settle_of_some he]
    rw [hr, ← htickets]
    exact hs.drop ho
  · rw [hr]
    apply h.drop
    intro ho
    obtain ⟨e, he, hg⟩ := h.pending t ht ho
    exact hne e he hg

theorem Accounts.grows_release (h : w.Accounts held) (t : Ticket) : w.Grows (w.release t) := by
  rcases release_cases w t with ⟨e, -, -, -, hr⟩ | ⟨e, -, -, -, hr⟩ | ⟨-, hr⟩
  · rw [hr]
    exact ⟨fun ho => ho, Nat.le_refl _⟩
  · have hs := h.grows_settle false t.objectId
    rw [hr]
    exact ⟨hs.outcomes, hs.next_le⟩
  · rw [hr]
    exact ⟨fun ho => ho, Nat.le_refl _⟩

/-- Giving a ticket back settles no ticket that is still held. -/
theorem Accounts.outcome?_release_of_held (h : w.Accounts (t :: held)) {k : Ticket}
    (hk : k ∈ held) : (w.release t).outcome? k = w.outcome? k := by
  rcases release_cases w t with ⟨e, -, -, -, hr⟩ | ⟨e, he, hg, hc, hr⟩ | ⟨-, hr⟩
  · rw [hr]
    rfl
  · -- the entry goes with its only ticket, so `k` is not one of its tickets
    have hself : (⟨t.objectId, e.generation⟩ : Ticket) = t := by rw [hg]
    have hcount := h.count_eq he
    rw [hself, List.count_cons_self] at hcount
    have hnot : t ∉ held := by
      rw [← List.count_eq_zero]
      omega
    rw [hr]
    change (w.settle false t.objectId).outcome? k = w.outcome? k
    rw [h.outcome?_settle_of_held (List.mem_cons_of_mem _ hk), if_neg]
    rintro ⟨ho, hid⟩
    obtain ⟨f, hf, hfg⟩ := h.pending k (List.mem_cons_of_mem _ hk) ho
    rw [hid, he] at hf
    cases hf
    have hEq : k = t := by
      rw [← hself, hfg, ← hid]
    exact hnot (hEq ▸ hk)
  · rw [hr]
    rfl

end Waitlist

end LeasedLocks
