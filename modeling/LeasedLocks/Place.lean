import LeasedLocks.Tree

/-!
# Places in trees

A node of a tree is found at its place, by the branches that lead to it. `Tree.relabel`
changes all labels in place, with a stack of the places that are still to be visited: it
comes to a node before the subtrees below it, of which it takes the last one first. As every
place is visited once, this is mapping the labels (`relabel_eq_map`).
-/

namespace LeasedLocks

/-- The branches that lead from the root to a node, each by its number. -/
abbrev Place := List Nat

namespace Tree

variable {α β γ : Type} {f : α → α} {t u : Tree α} {p q : Place} {stack : List Place}

/-- The subtree at a place, if the tree has that place. -/
def subtree? (t : Tree α) : Place → Option (Tree α)
  | [] => some t
  | i :: p => t.linked[i]?.bind fun u => u.subtree? p

/-- Changes the label at a place. -/
def relabelAt (f : α → α) (t : Tree α) : Place → Tree α
  | [] => node (f t.label) t.linked
  | i :: p => node t.label (t.linked.modify i fun u => u.relabelAt f p)

/-- The places right below a place, the last one first. -/
def placesBelow (t : Tree α) (p : Place) : List Place :=
  match t.subtree? p with
  | some u => (List.range u.linked.length).reverse.map fun i => p ++ [i]
  | none => []

@[simp] theorem subtree?_nil (t : Tree α) : t.subtree? [] = some t := rfl

@[simp] theorem subtree?_cons (t : Tree α) (i : Nat) (p : Place) :
    t.subtree? (i :: p) = t.linked[i]?.bind fun u => u.subtree? p := rfl

theorem subtree?_append (t : Tree α) (p q : Place) :
    t.subtree? (p ++ q) = (t.subtree? p).bind fun u => u.subtree? q := by
  induction p generalizing t with
  | nil => rfl
  | cons i p ih =>
    simp only [List.cons_append, subtree?_cons, Option.bind_assoc, ih]

theorem subtree?_map (f : α → β) (t : Tree α) (p : Place) :
    (t.map f).subtree? p = (t.subtree? p).map (map f) := by
  induction p generalizing t with
  | nil => rfl
  | cons i p ih =>
    simp only [subtree?_cons, linked_map, List.getElem?_map, Option.bind_map, Function.comp_def,
      ih, Option.map_bind]

/-! ## One change -/

/-- What a change of one label leaves of each of the subtrees, it leaves of all of them. -/
theorem map_modify_linked {m : Tree α → γ} (hm : ∀ u, m (relabelAt f u p) = m u)
    (ts : List (Tree α)) (i : Nat) :
    (ts.modify i fun u => u.relabelAt f p).map m = ts.map m := by
  apply List.ext_getElem?
  intro j
  rw [List.getElem?_map, List.getElem?_map, List.getElem?_modify]
  cases ts[j]? with
  | none => rfl
  | some u =>
    change some (m (if i = j then u.relabelAt f p else u)) = some (m u)
    split
    · rw [hm]
    · rfl

/-- A change of one label leaves below every place what it leaves of a whole tree. -/
theorem map_subtree?_relabelAt {m : Tree α → γ} (hm : ∀ u p, m (relabelAt f u p) = m u)
    (t : Tree α) (p q : Place) :
    ((t.relabelAt f p).subtree? q).map m = (t.subtree? q).map m := by
  induction q generalizing t p with
  | nil => simp [hm]
  | cons j q ih =>
    cases p with
    | nil => rfl
    | cons i p =>
      rw [relabelAt, subtree?_cons, subtree?_cons, linked_node, List.getElem?_modify]
      cases t.linked[j]? with
      | none => rfl
      | some u =>
        change ((if i = j then u.relabelAt f p else u).subtree? q).map m = (u.subtree? q).map m
        split
        · exact ih u p
        · rfl

/-- One label changes, and all others stay. -/
theorem label_subtree?_relabelAt (f : α → α) (t : Tree α) (p q : Place) :
    ((t.relabelAt f p).subtree? q).map label =
      ((t.subtree? q).map label).map (if p = q then f else id) := by
  induction p generalizing t q with
  | nil =>
    cases q with
    | nil => rfl
    | cons j q => simp [relabelAt]
  | cons i p ih =>
    cases q with
    | nil => simp [relabelAt]
    | cons j q =>
      rw [relabelAt, subtree?_cons, subtree?_cons, linked_node, List.getElem?_modify]
      cases t.linked[j]? with
      | none => rfl
      | some u =>
        change ((if i = j then u.relabelAt f p else u).subtree? q).map label =
          ((u.subtree? q).map label).map (if i :: p = j :: q then f else id)
        by_cases hij : i = j
        · subst hij
          simp only [if_true, ih, List.cons.injEq, true_and]
        · simp [hij]

theorem sizeAll_congr {ts us : List (Tree α)} (h : ts.map size = us.map size) :
    sizeAll ts = sizeAll us := by
  induction ts generalizing us with
  | nil => rw [List.map_eq_nil_iff.mp h.symm]
  | cons t ts ih =>
    obtain ⟨u, us, rfl, hsize, hsizes⟩ := List.map_eq_cons_iff.mp h.symm
    rw [sizeAll_cons, sizeAll_cons, hsize, ih hsizes.symm]

theorem sizeAll_reverse (ts : List (Tree α)) : sizeAll ts.reverse = sizeAll ts := by
  induction ts with
  | nil => rfl
  | cons t ts ih =>
    rw [List.reverse_cons, sizeAll_append, sizeAll_cons, sizeAll_cons, sizeAll_nil, ih]
    omega

@[simp] theorem size_relabelAt (f : α → α) (t : Tree α) (p : Place) :
    (t.relabelAt f p).size = t.size := by
  induction p generalizing t with
  | nil =>
    cases t
    rw [relabelAt, label_node, linked_node, size_node, size_node]
  | cons i p ih =>
    cases t
    rw [relabelAt, linked_node, size_node, size_node, sizeAll_congr (map_modify_linked ih _ _)]

/-! ## All changes -/

/-- How many nodes there are at and below the places of a stack. -/
def sizeAt (t : Tree α) : List Place → Nat
  | [] => 0
  | p :: stack => ((t.subtree? p).map size).getD 1 + t.sizeAt stack

@[simp] theorem sizeAt_relabelAt (f : α → α) (t : Tree α) (p : Place) (stack : List Place) :
    (t.relabelAt f p).sizeAt stack = t.sizeAt stack := by
  induction stack with
  | nil => rfl
  | cons q stack ih => rw [sizeAt, sizeAt, map_subtree?_relabelAt (size_relabelAt f), ih]

theorem sizeAt_append (t : Tree α) (stack below : List Place) :
    t.sizeAt (stack ++ below) = t.sizeAt stack + t.sizeAt below := by
  induction stack with
  | nil => rw [List.nil_append, sizeAt, Nat.zero_add]
  | cons p stack ih => rw [List.cons_append, sizeAt, sizeAt, ih, Nat.add_assoc]

/-- At the places of these subtrees there are all of their nodes. -/
theorem sizeAt_eq_sizeAll {us : List (Tree α)} (h : stack.map t.subtree? = us.map some) :
    t.sizeAt stack = sizeAll us := by
  induction stack generalizing us with
  | nil =>
    rw [List.map_eq_nil_iff.mp h.symm, sizeAt, sizeAll_nil]
  | cons p stack ih =>
    obtain ⟨u, us, rfl, hp, hstack⟩ := List.map_eq_cons_iff.mp h.symm
    rw [sizeAt, ← hp, ih hstack.symm, sizeAll_cons]
    rfl

theorem getElem?_linked_of_subtree? (h : t.subtree? p = some u) (i : Nat) :
    t.subtree? (p ++ [i]) = u.linked[i]? := by
  rw [subtree?_append, h, Option.bind_some, subtree?_cons]
  exact Option.bind_fun_some _

/-- Below a place there is one node less. -/
theorem sizeAt_placesBelow_lt (t : Tree α) (p : Place) (stack : List Place) :
    t.sizeAt (t.placesBelow p ++ stack) < t.sizeAt (p :: stack) := by
  rw [sizeAt_append, sizeAt]
  apply Nat.add_lt_add_right
  unfold placesBelow
  cases ht : t.subtree? p with
  | none => exact Nat.zero_lt_one
  | some u =>
    have hbelow : (List.range u.linked.length).map (fun i => t.subtree? (p ++ [i])) =
        u.linked.map some := by
      apply List.ext_getElem (by simp)
      intro i hi _
      simp only [List.length_map, List.length_range] at hi
      simp [getElem?_linked_of_subtree? ht, List.getElem?_eq_getElem hi]
    have hplaces : ((List.range u.linked.length).reverse.map fun i => p ++ [i]).map t.subtree? =
        u.linked.reverse.map some := by
      rw [List.map_map, List.map_reverse, List.map_reverse, ← hbelow]
      rfl
    rw [sizeAt_eq_sizeAll hplaces, sizeAll_reverse]
    cases u with
    | node a ts =>
      rw [linked_node, Option.map_some, Option.getD_some, size_node]
      exact Nat.lt_succ_self _

/-- Changes the labels at all places on the stack and below them: the top one is taken, and
the places right below it are put on the stack. -/
def relabelEach (f : α → α) (t : Tree α) : List Place → Tree α
  | [] => t
  | p :: stack => relabelEach f (t.relabelAt f p) (t.placesBelow p ++ stack)
termination_by stack => t.sizeAt stack
decreasing_by
  rw [sizeAt_relabelAt]
  exact sizeAt_placesBelow_lt t p stack

/-- Changes every label of the tree. -/
def relabel (f : α → α) (t : Tree α) : Tree α := t.relabelEach f [[]]

theorem relabelEach_nil (f : α → α) (t : Tree α) : t.relabelEach f [] = t := by
  rw [relabelEach]

theorem relabelEach_cons (f : α → α) (t : Tree α) (p : Place) (stack : List Place) :
    t.relabelEach f (p :: stack) =
      (t.relabelAt f p).relabelEach f (t.placesBelow p ++ stack) := by
  rw [relabelEach]

/-! ## The places of a tree -/

mutual

/-- All places of a tree in the order of the changes: the root, then those of the last
subtree, and those of the first one at the end. -/
def places : Tree α → List Place
  | node _ ts => [] :: placesFrom 0 ts

def placesFrom : Nat → List (Tree α) → List Place
  | _, [] => []
  | n, t :: ts => placesFrom (n + 1) ts ++ t.places.map (n :: ·)

end

theorem mem_placesFrom {n : Nat} {ts : List (Tree α)} :
    p ∈ placesFrom n ts ↔ ∃ i u q, ts[i]? = some u ∧ q ∈ u.places ∧ p = (n + i) :: q := by
  induction ts generalizing n with
  | nil => simp [placesFrom]
  | cons t ts ih =>
    rw [placesFrom, List.mem_append, List.mem_map, ih]
    constructor
    · rintro (⟨i, u, q, hu, hq, rfl⟩ | ⟨q, hq, rfl⟩)
      · exact ⟨i + 1, u, q, hu, hq, by rw [Nat.add_right_comm, Nat.add_assoc]⟩
      · exact ⟨0, t, q, rfl, hq, rfl⟩
    · rintro ⟨i, u, q, hu, hq, rfl⟩
      cases i with
      | zero =>
        cases hu
        exact .inr ⟨q, hq, rfl⟩
      | succ i => exact .inl ⟨i, u, q, hu, hq, by rw [Nat.add_right_comm, Nat.add_assoc]⟩

/-- The places of a tree are those where it has a subtree. -/
theorem mem_places : p ∈ t.places ↔ (t.subtree? p).isSome = true := by
  induction p generalizing t with
  | nil =>
    cases t
    simp [places]
  | cons i p ih =>
    cases t with
    | node a ts =>
      rw [places, List.mem_cons, mem_placesFrom, subtree?_cons, linked_node]
      constructor
      · rintro (h | ⟨j, u, q, hu, hq, h⟩)
        · cases h
        · rw [Nat.zero_add] at h
          cases h
          rw [hu]
          exact ih.mp hq
      · intro h
        cases hu : ts[i]? with
        | none =>
          rw [hu] at h
          cases h
        | some u =>
          rw [hu] at h
          exact .inr ⟨i, u, p, hu, ih.mpr h, by rw [Nat.zero_add]⟩

mutual

theorem nodup_places : ∀ t : Tree α, t.places.Nodup
  | node _ ts => by
    rw [places]
    refine List.nodup_cons.mpr ⟨fun h => ?_, nodup_placesFrom 0 ts⟩
    obtain ⟨_, _, _, -, -, h⟩ := mem_placesFrom.mp h
    cases h

theorem nodup_placesFrom : ∀ (n : Nat) (ts : List (Tree α)), (placesFrom n ts).Nodup
  | _, [] => by
    rw [placesFrom]
    exact List.nodup_nil
  | n, t :: ts => by
    rw [placesFrom]
    refine List.nodup_append.mpr ⟨nodup_placesFrom (n + 1) ts, ?_, ?_⟩
    · exact List.pairwise_map.mpr ((nodup_places t).imp fun h he => h (List.cons.inj he).2)
    · intro p hp q hq he
      -- the places of the other subtrees begin with greater numbers
      obtain ⟨i, _, _, -, -, rfl⟩ := mem_placesFrom.mp hp
      obtain ⟨r, -, rfl⟩ := List.mem_map.mp hq
      have := (List.cons.inj he).1
      omega

end

theorem placesFrom_congr {ts us : List (Tree α)} (h : ts.map places = us.map places) (n : Nat) :
    placesFrom n ts = placesFrom n us := by
  induction ts generalizing n us with
  | nil => rw [List.map_eq_nil_iff.mp h.symm]
  | cons t ts ih =>
    cases us with
    | nil => cases h
    | cons u us =>
      obtain ⟨ht, hts⟩ := List.cons.inj h
      rw [placesFrom, placesFrom, ht, ih hts]

theorem placesFrom_eq_flatMap (n : Nat) (ts : List (Tree α)) :
    placesFrom n ts = (List.range ts.length).reverse.flatMap fun i =>
      ((ts[i]?.map places).getD [[]]).map ((n + i) :: ·) := by
  induction ts generalizing n with
  | nil => rw [placesFrom]; rfl
  | cons t ts ih =>
    rw [placesFrom, ih, List.length_cons, List.range_succ_eq_map, List.reverse_cons,
      List.flatMap_append, List.flatMap_singleton, ← List.map_reverse, List.flatMap_map]
    simp only [Nat.succ_eq_add_one, List.getElem?_cons_succ, Nat.add_assoc, Nat.add_comm 1]
    rfl

/-- A change of one label leaves the places as they are. -/
@[simp] theorem places_relabelAt (f : α → α) (t : Tree α) (p : Place) :
    (t.relabelAt f p).places = t.places := by
  induction p generalizing t with
  | nil =>
    cases t
    rw [relabelAt, linked_node, places, places]
  | cons i p ih =>
    cases t
    rw [relabelAt, linked_node, places, places, placesFrom_congr (map_modify_linked ih _ i)]

/-- The places of the subtree at a place, as places of the whole tree. -/
def placesAt (t : Tree α) (p : Place) : List Place :=
  (((t.subtree? p).map places).getD [[]]).map (p ++ ·)

theorem placesAt_relabelAt (f : α → α) (t : Tree α) (p : Place) :
    (t.relabelAt f p).placesAt = t.placesAt := by
  funext q
  rw [placesAt, placesAt, map_subtree?_relabelAt (places_relabelAt f)]

/-- A place comes first, then what is at and below the places right below it. -/
theorem placesAt_eq_cons (t : Tree α) (p : Place) :
    t.placesAt p = p :: (t.placesBelow p).flatMap t.placesAt := by
  unfold placesBelow
  cases ht : t.subtree? p with
  | none => simp [placesAt, ht]
  | some u =>
    have hbelow (i : Nat) : t.placesAt (p ++ [i]) =
        (((u.linked[i]?.map places).getD [[]]).map (i :: ·)).map (p ++ ·) := by
      rw [placesAt, getElem?_linked_of_subtree? ht, List.map_map]
      congr 1
      funext q
      exact List.append_assoc p [i] q
    cases u with
    | node a ts =>
      simp only [placesAt, ht, Option.map_some, Option.getD_some, places, List.map_cons,
        List.append_nil, placesFrom_eq_flatMap, Nat.zero_add, List.map_flatMap, List.flatMap_map,
        linked_node]
      congr 2
      funext i
      exact (hbelow i).symm

/-- The labels are changed one after the other, in the order of the places. -/
theorem relabelEach_eq_foldl (f : α → α) (t : Tree α) (stack : List Place) :
    t.relabelEach f stack = (stack.flatMap t.placesAt).foldl (relabelAt f) t := by
  induction t, stack using relabelEach.induct f with
  | case1 t => rw [relabelEach_nil]; rfl
  | case2 t p stack ih =>
    rw [relabelEach_cons, ih, placesAt_relabelAt, List.flatMap_append, List.flatMap_cons,
      placesAt_eq_cons, List.cons_append, List.foldl_cons]

theorem relabel_eq_foldl (f : α → α) (t : Tree α) :
    t.relabel f = t.places.foldl (relabelAt f) t := by
  rw [relabel, relabelEach_eq_foldl]
  simp [placesAt]

/-- Changes at different places change each of these labels once, and no others. -/
theorem label_subtree?_foldl_relabelAt (f : α → α) (t : Tree α) {ps : List Place}
    (h : ps.Nodup) (q : Place) :
    ((ps.foldl (relabelAt f) t).subtree? q).map label =
      ((t.subtree? q).map label).map (if q ∈ ps then f else id) := by
  induction ps generalizing t with
  | nil => simp
  | cons p ps ih =>
    obtain ⟨hp, h⟩ := List.nodup_cons.mp h
    rw [List.foldl_cons, ih _ h, label_subtree?_relabelAt, Option.map_map]
    by_cases hq : p = q
    · subst hq
      simp [hp]
    · simp [hq, Ne.symm hq]

/-- Trees with the same labels at the same places are the same. -/
theorem ext_places : ∀ {t u : Tree α},
    (∀ p, (t.subtree? p).map label = (u.subtree? p).map label) → t = u
  | node a ts, node b us, h => by
    have hlabel : a = b := Option.some.inj (h [])
    have hlinked : ts = us := by
      apply List.ext_getElem?
      intro i
      have hi (p : Place) : (ts[i]?.bind fun v => v.subtree? p).map label =
          (us[i]?.bind fun v => v.subtree? p).map label := h (i :: p)
      cases ht : ts[i]? with
      | none =>
        rw [ht] at hi
        cases hu : us[i]? with
        | none => rfl
        | some y =>
          rw [hu] at hi
          cases hi []
      | some x =>
        have hmem : x ∈ ts := List.mem_of_getElem? ht
        rw [ht] at hi
        cases hu : us[i]? with
        | none =>
          rw [hu] at hi
          cases hi []
        | some y =>
          rw [hu] at hi
          rw [ext_places hi]
    rw [hlabel, hlinked]

/-- Changing the labels in place, one after the other, is mapping them. -/
theorem relabel_eq_map (f : α → α) (t : Tree α) : t.relabel f = t.map f := by
  apply ext_places
  intro p
  rw [relabel_eq_foldl, label_subtree?_foldl_relabelAt f t (nodup_places t), subtree?_map,
    Option.map_map]
  cases ht : t.subtree? p with
  | none => rfl
  | some u =>
    have hp : p ∈ t.places := mem_places.mpr (by rw [ht]; rfl)
    rw [if_pos hp, Option.map_some, Option.map_some, Option.map_some, Function.comp_apply,
      label_map]

end Tree

end LeasedLocks
