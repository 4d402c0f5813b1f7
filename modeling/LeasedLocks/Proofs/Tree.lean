import LeasedLocks.Tree

/-!
# Relabelling trees

Relabelling twice is relabelling once, a relabelling goes by the labels of the tree
alone, and the nodes of a relabelled tree stand beside the nodes that they came from.
-/

namespace LeasedLocks.Tree

variable {α β γ : Type}

mutual

/-- Two relabellings in turn are one. -/
theorem map_map (f : α → β) (g : β → γ) :
    ∀ t : Tree α, (t.map f).map g = t.map (g ∘ f)
  | node a ts => by
      rw [map, map, map, mapAll_mapAll f g ts, Function.comp_apply]

theorem mapAll_mapAll (f : α → β) (g : β → γ) :
    ∀ ts : List (Tree α), mapAll g (mapAll f ts) = mapAll (g ∘ f) ts
  | [] => by rw [mapAll, mapAll, mapAll]
  | t :: ts => by
      rw [mapAll, mapAll, mapAll, map_map f g t, mapAll_mapAll f g ts]

end

theorem labels_node (a : α) (ts : List (Tree α)) :
    (node a ts).labels = a :: ts.flatMap labels := by
  rw [labels, nodes_node, List.map_cons, label_node, List.map_flatMap]
  rfl

mutual

/-- What the labels become is all that counts. -/
theorem map_congr {f g : α → β} :
    ∀ t : Tree α, (∀ a ∈ t.labels, f a = g a) → t.map f = t.map g
  | node a ts, h => by
      rw [labels_node] at h
      rw [map, map, h a List.mem_cons_self,
        mapAll_congr ts fun b hb => h b (List.mem_cons_of_mem a hb)]

theorem mapAll_congr {f g : α → β} :
    ∀ ts : List (Tree α), (∀ a ∈ ts.flatMap labels, f a = g a) → mapAll f ts = mapAll g ts
  | [], _ => by rw [mapAll, mapAll]
  | t :: ts, h => by
      rw [List.flatMap_cons] at h
      rw [mapAll, mapAll, map_congr t fun a ha => h a (List.mem_append_left _ ha),
        mapAll_congr ts fun a ha => h a (List.mem_append_right _ ha)]

end

theorem label_mem_labels {t n : Tree α} (h : n ∈ t.nodes) : n.label ∈ t.labels :=
  List.mem_map_of_mem h

/-- The root is a node of the tree. -/
theorem label_mem_labels_self (t : Tree α) : t.label ∈ t.labels := by
  cases t with
  | node a ts => simp [labels, nodes_node]

theorem mem_nodes_self (t : Tree α) : t ∈ t.nodes := by
  cases t with
  | node a ts =>
      rw [nodes_node]
      exact List.mem_cons_self

/-- A walk that visits a node visits what is linked below it. -/
theorem mem_walk_of_linked {stack : List (Tree α)} {t n : Tree α} (hn : n ∈ walk stack)
    (ht : t ∈ n.linked) : t ∈ walk stack := by
  induction stack using walk.induct with
  | case1 => simp at hn
  | case2 a ts rest ih =>
      rw [walk_cons] at hn ⊢
      apply List.mem_cons_of_mem
      rcases List.mem_cons.mp hn with rfl | hn
      · rw [walk_append, walk_eq_flatMap_nodes]
        exact List.mem_append_left _ (List.mem_flatMap.mpr ⟨t, ht, mem_nodes_self t⟩)
      · exact ih hn

/-- A node of the relabelled tree at the place of `n` is `n` relabelled. -/
theorem mem_zip_nodes_map {f : α → β} {t n : Tree α} {m : Tree β}
    (h : (n, m) ∈ t.nodes.zip (t.map f).nodes) : n ∈ t.nodes ∧ m = n.map f := by
  rw [nodes_map, ← List.map_prod_left_eq_zip, List.mem_map] at h
  obtain ⟨k, hk, he⟩ := h
  cases he
  exact ⟨hk, rfl⟩

end LeasedLocks.Tree
