import LeasedLocks.Outcome
import LeasedLocks.Proofs.Maps
import Mathlib.Data.List.Forall2
import Mathlib.Data.List.Nodup

/-!
# What an outcome says

The outcome of a call holds for each object what was answered at the place at which it
was asked for, provided that no object was asked for twice.
-/

namespace LeasedLocks

/-- There is a reply to each request, and it has the identifiers of the request in the same
order. -/
def Fits (requests : List Request) (replies : List Reply) : Prop :=
  List.Forall₂ (fun r y => Reply.objectIds y = Request.objectIds r) requests replies

namespace Fits

variable {requests : List Request} {replies : List Reply} {r : Request} {y : Reply} {n : Nat}

theorem of_getElem? (hlength : replies.length = requests.length)
    (h : ∀ {n : Nat} {r : Request} {y : Reply}, requests[n]? = some r → replies[n]? = some y →
      y.objectIds = r.objectIds) : Fits requests replies := by
  refine List.forall₂_iff_get.mpr ⟨hlength.symm, fun n hr hy => ?_⟩
  exact h (List.getElem?_eq_getElem hr) (List.getElem?_eq_getElem hy)

theorem objectIds_eq (h : Fits requests replies) (hp : (r, y) ∈ requests.zip replies) :
    y.objectIds = r.objectIds := (List.forall₂_iff_zip.mp h).2 hp

/-- A reply to one of the trees takes the place of the one before. -/
theorem set (h : Fits requests replies) (hr : requests[n]? = some r)
    (hy : y.objectIds = r.objectIds) : Fits requests (replies.set n y) := by
  refine List.forall₂_iff_get.mpr ⟨by rw [List.length_set]; exact h.length_eq, fun m hm hm' => ?_⟩
  simp only [List.get_eq_getElem]
  by_cases hn : n = m
  · subst hn
    obtain ⟨hlt, rfl⟩ := List.getElem?_eq_some_iff.mp hr
    rw [List.getElem_set_self]
    exact hy
  · rw [List.getElem_set_ne hn]
    exact (List.forall₂_iff_get.mp h).2 m hm (by rwa [List.length_set] at hm')

/-- A single tree has a single reply. -/
theorem eq_singleton (h : Fits [r] replies) : ∃ y, replies = [y] ∧ y.objectIds = r.objectIds := by
  cases h with
  | cons hy hnil =>
      cases hnil
      exact ⟨_, rfl, hy⟩

end Fits

namespace Outcome

variable {asks bs : List Ask} {xs : List Answer} {a : Ask} {x : Answer} {ss : List Status}
  {s : Status} {requests : List Request} {replies : List Reply} {waited : Duration}
  {o : Outcome} {id : String}

theorem waited_of_assemble (h : assemble requests replies waited = .ok o) :
    o.waited = waited := by
  unfold assemble at h
  cases hs : statusesOf (requests.flatMap Tree.labels) (replies.flatMap Tree.labels) with
  | error e =>
      rw [hs] at h
      cases h
  | ok ss =>
      rw [hs] at h
      cases h
      rfl

theorem askFor?_of_mem (hnd : (asks.map Ask.objectId).Nodup) (ha : a ∈ asks) :
    askFor? asks a.objectId = some a := by
  unfold askFor?
  cases hf : asks.reverse.find? (·.objectId == a.objectId) with
  | none =>
      have hnot := List.find?_eq_none.mp hf a (List.mem_reverse.mpr ha)
      simp at hnot
  | some b =>
      have hb := List.mem_reverse.mp (List.mem_of_find?_eq_some hf)
      have hid : b.objectId = a.objectId := by simpa using List.find?_some hf
      rw [List.inj_on_of_nodup_map hnd hb ha hid]

/-- Answers to what was asked for are joined with it in order. -/
theorem statusesOf_eq_zipWith (hnd : (asks.map Ask.objectId).Nodup) (hbs : bs ⊆ asks)
    (hids : xs.map Answer.objectId = bs.map Ask.objectId) :
    statusesOf asks xs = .ok (List.zipWith Status.ofAnswer bs xs) := by
  induction bs generalizing xs with
  | nil =>
      rw [List.map_nil, List.map_eq_nil_iff] at hids
      rw [hids]
      rfl
  | cons b bs ih =>
      cases xs with
      | nil => cases hids
      | cons x xs =>
          obtain ⟨hid, hids⟩ := List.cons.inj hids
          have hask := askFor?_of_mem hnd (hbs List.mem_cons_self)
          rw [← hid] at hask
          have hrest := ih (fun c hc => hbs (List.mem_cons_of_mem b hc)) hids
          simp only [statusesOf, hask, hrest]
          rfl

/-- The states that are joined in this way are those of the objects asked for. -/
theorem objectId_zipWith (hids : xs.map Answer.objectId = bs.map Ask.objectId) :
    (List.zipWith Status.ofAnswer bs xs).map Status.objectId = bs.map Ask.objectId ∧
      ∀ p ∈ bs.zip xs, p.2.objectId = p.1.objectId := by
  induction bs generalizing xs with
  | nil => exact ⟨rfl, fun _ hp => nomatch hp⟩
  | cons b bs ih =>
      cases xs with
      | nil => cases hids
      | cons x xs =>
          obtain ⟨hid, hids⟩ := List.cons.inj hids
          obtain ⟨hstatuses, hzip⟩ := ih hids
          refine ⟨?_, ?_⟩
          · rw [List.zipWith_cons_cons, List.map_cons, hstatuses, List.map_cons, ← hid]
            rfl
          · intro p hp
            rcases List.mem_cons.mp hp with rfl | hp
            · exact hid
            · exact hzip p hp

theorem getElem?_foldl_insert_of_not_mem {m : Std.ExtTreeMap String Status}
    (hid : id ∉ ss.map Status.objectId) :
    (ss.foldl (fun m s => m.insert s.objectId s) m)[id]? = m[id]? := by
  induction ss generalizing m with
  | nil => rfl
  | cons s ss ih =>
      simp only [List.map_cons, List.mem_cons, not_or] at hid
      rw [List.foldl_cons, ih hid.2, Std.ExtTreeMap.getElem?_insert, if_neg]
      simpa using Ne.symm hid.1

/-- States with different identifiers do not replace each other. -/
theorem get?_ofStatuses (hnd : (ss.map Status.objectId).Nodup) (hs : s ∈ ss) :
    (ofStatuses ss waited).get? s.objectId = some s := by
  have hfile (m : Std.ExtTreeMap String Status) :
      (ss.foldl (fun m s => m.insert s.objectId s) m)[s.objectId]? = some s := by
    induction ss generalizing m with
    | nil => cases hs
    | cons u ss ih =>
        rw [List.map_cons, List.nodup_cons] at hnd
        rw [List.foldl_cons]
        rcases List.mem_cons.mp hs with rfl | hs
        · rw [getElem?_foldl_insert_of_not_mem hnd.1, Std.ExtTreeMap.getElem?_insert_self]
        · exact ih hnd.2 hs _
  exact hfile ∅

/-- What is asked for and answered tree by tree is so node by node. -/
theorem zip_flatMap_labels (h : Fits requests replies) :
    (requests.flatMap Tree.labels).zip (replies.flatMap Tree.labels) =
      (requests.zip replies).flatMap fun p => p.1.labels.zip p.2.labels := by
  induction h with
  | nil => rfl
  | @cons r y requests replies hids _ ih =>
      have hlen := congrArg List.length hids
      rw [Reply.objectIds, Request.objectIds, List.length_map, List.length_map] at hlen
      rw [List.flatMap_cons, List.flatMap_cons, List.zip_append hlen.symm, ih]
      rfl

theorem objectIds_flatMap_labels (h : Fits requests replies) :
    (replies.flatMap Tree.labels).map Answer.objectId =
      (requests.flatMap Tree.labels).map Ask.objectId := by
  induction h with
  | nil => rfl
  | @cons r y requests replies hids _ ih =>
      rw [List.flatMap_cons, List.flatMap_cons, List.map_append, List.map_append, ih]
      exact congrArg (· ++ _) hids

/-- The state of an object is what was answered at the place at which it was asked for. -/
theorem get?_assemble (hnd : (requests.flatMap Request.objectIds).Nodup)
    (hids : Fits requests replies) (h : assemble requests replies waited = .ok o)
    {r : Request} {y : Reply} (hr : (r, y) ∈ requests.zip replies)
    (ha : (a, x) ∈ r.labels.zip y.labels) :
    o.get? a.objectId = some (.ofAnswer a x) := by
  have hasks : ((requests.flatMap Tree.labels).map Ask.objectId).Nodup := by
    rwa [List.map_flatMap]
  have hanswers := objectIds_flatMap_labels hids
  have hstatuses := statusesOf_eq_zipWith hasks (fun _ hb => hb) hanswers
  rw [assemble, hstatuses] at h
  cases h
  have hmem : (a, x) ∈ (requests.flatMap Tree.labels).zip (replies.flatMap Tree.labels) := by
    rw [zip_flatMap_labels hids]
    exact List.mem_flatMap.mpr ⟨(r, y), hr, ha⟩
  have hs : Status.ofAnswer a x ∈ List.zipWith Status.ofAnswer
      (requests.flatMap Tree.labels) (replies.flatMap Tree.labels) := by
    rw [← List.map_uncurry_zip_eq_zipWith]
    exact List.mem_map_of_mem hmem
  obtain ⟨hnames, hzip⟩ := objectId_zipWith hanswers
  rw [← hnames] at hasks
  have hget : (ofStatuses _ waited).get? _ = _ := get?_ofStatuses hasks hs
  rwa [show (Status.ofAnswer a x).objectId = a.objectId from hzip _ hmem] at hget

/-! ## One state for each object -/

/-- The outcome holds exactly the objects that were asked for, with what was asked and what
was answered at one and the same place. -/
structure Matches (o : Outcome) (requests : List Request) (replies : List Reply) : Prop where
  mem_iff : ∀ id, (∃ s, o.get? id = some s) ↔ id ∈ requests.flatMap Request.objectIds
  get?_eq : ∀ {r : Request} {y : Reply} {a : Ask} {x : Answer}, (r, y) ∈ requests.zip replies →
    (a, x) ∈ r.labels.zip y.labels → o.get? a.objectId = some
      { objectId := a.objectId, description := a.description, holder := x.holder,
        isGranted := x.isGranted, autoUnlockAt := x.autoUnlockAt, priority := a.priority }
  allGranted_iff : o.allGranted = true ↔ ∀ y ∈ replies, ∀ x ∈ Tree.labels y, x.isGranted = true

theorem get?_ofStatuses_eq_some_iff (hnd : (ss.map Status.objectId).Nodup) :
    (ofStatuses ss waited).get? id = some s ↔ s ∈ ss ∧ s.objectId = id := by
  constructor
  · intro hget
    by_cases hid : id ∈ ss.map Status.objectId
    · obtain ⟨u, hu, rfl⟩ := List.mem_map.mp hid
      rw [get?_ofStatuses hnd hu] at hget
      cases hget
      exact ⟨hu, rfl⟩
    · rw [ofStatuses, get?, getElem?_foldl_insert_of_not_mem hid] at hget
      simp at hget
  · rintro ⟨hs, rfl⟩
    exact get?_ofStatuses hnd hs

theorem allGranted_ofStatuses (hnd : (ss.map Status.objectId).Nodup) :
    (ofStatuses ss waited).allGranted = true ↔ ∀ s ∈ ss, s.isGranted = true := by
  rw [allGranted, List.all_eq_true]
  have hmem (s : Status) : s ∈ (ofStatuses ss waited).statuses.values ↔ s ∈ ss := by
    rw [mem_values_iff]
    constructor
    · rintro ⟨id, hget⟩
      exact ((get?_ofStatuses_eq_some_iff hnd).mp hget).1
    · exact fun hs => ⟨s.objectId, get?_ofStatuses hnd hs⟩
  simp only [hmem]

/-- Answers that are as many as what was asked for are all joined with it. -/
theorem forall_mem_zipWith_isGranted (hlength : xs.length ≤ asks.length) :
    (∀ s ∈ List.zipWith Status.ofAnswer asks xs, s.isGranted = true) ↔
      ∀ x ∈ xs, x.isGranted = true := by
  rw [← List.map_uncurry_zip_eq_zipWith]
  conv_rhs => rw [← List.map_snd_zip hlength]
  simp only [List.forall_mem_map]
  rfl

/-- Replies that fit always make an outcome, and it matches them. -/
theorem exists_matches (hnd : (requests.flatMap Request.objectIds).Nodup)
    (hids : Fits requests replies) (waited : Duration) :
    ∃ o, assemble requests replies waited = .ok o ∧ o.Matches requests replies := by
  have hasks : ((requests.flatMap Tree.labels).map Ask.objectId).Nodup := by
    rwa [List.map_flatMap]
  have hanswers := objectIds_flatMap_labels hids
  have hlength := congrArg List.length hanswers
  rw [List.length_map, List.length_map] at hlength
  have hstatuses := statusesOf_eq_zipWith hasks (fun _ hb => hb) hanswers
  have hnames := (objectId_zipWith hanswers).1
  have hassemble : assemble requests replies waited = .ok (ofStatuses
      (List.zipWith Status.ofAnswer (requests.flatMap Tree.labels) (replies.flatMap Tree.labels))
      waited) := by
    rw [assemble, hstatuses]
    rfl
  rw [← hnames] at hasks
  refine ⟨_, hassemble, ?_, fun {r} {y} {a} {x} hr ha => ?_, ?_⟩
  · intro id
    have hflat : requests.flatMap Request.objectIds =
        (requests.flatMap Tree.labels).map Ask.objectId := by
      rw [List.map_flatMap]
      rfl
    simp only [get?_ofStatuses_eq_some_iff hasks, hflat, ← hnames, List.mem_map]
  · have hid : x.objectId = a.objectId := by
      refine (objectId_zipWith hanswers).2 (a, x) ?_
      rw [zip_flatMap_labels hids]
      exact List.mem_flatMap.mpr ⟨(r, y), hr, ha⟩
    rw [get?_assemble hnd hids hassemble hr ha, Status.ofAnswer, hid]
  · rw [allGranted_ofStatuses hasks, forall_mem_zipWith_isGranted (Nat.le_of_eq hlength)]
    exact List.forall_mem_flatMap

end Outcome

end LeasedLocks
