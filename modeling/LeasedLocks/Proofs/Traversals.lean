import LeasedLocks.Grant

/-!
# Walks with a stack

Two loops go through a tree with a stack of their own. `Tree.walk` lists the nodes, each
before the subtrees below it. `Tree.relabel` changes the labels, and takes the subtrees of a
node from the last to the first. Neither leaves a node out or comes to it twice, so both do
what recursion over the tree does, and a reply lists the objects of its request in the order
of the request.
-/

namespace LeasedLocks

namespace Tree

variable {α : Type}

mutual

/-- The nodes of a tree by recursion: the root, then those of each subtree in turn. -/
def preorder : Tree α → List (Tree α)
  | node a ts => node a ts :: preorderAll ts

def preorderAll : List (Tree α) → List (Tree α)
  | [] => []
  | t :: ts => t.preorder ++ preorderAll ts

end

mutual

/-- The walk lists the nodes as the recursion does. -/
theorem nodes_eq_preorder : ∀ t : Tree α, t.nodes = t.preorder
  | node a ts => by rw [nodes_node, preorder, flatMap_nodes_eq_preorderAll ts]

theorem flatMap_nodes_eq_preorderAll : ∀ ts : List (Tree α), ts.flatMap nodes = preorderAll ts
  | [] => by rw [preorderAll, List.flatMap_nil]
  | t :: ts => by
      rw [preorderAll, List.flatMap_cons, nodes_eq_preorder t, flatMap_nodes_eq_preorderAll ts]

end

mutual

/-- There are as many places as nodes. -/
theorem length_places : ∀ t : Tree α, t.places.length = t.size
  | node a ts => by rw [places, List.length_cons, length_placesFrom 0 ts, size_node]

theorem length_placesFrom : ∀ (n : Nat) (ts : List (Tree α)),
    (placesFrom n ts).length = sizeAll ts
  | n, [] => by rw [placesFrom, sizeAll_nil, List.length_nil]
  | n, t :: ts => by
      rw [placesFrom, List.length_append, length_placesFrom (n + 1) ts, List.length_map,
        length_places t, sizeAll_cons, Nat.add_comm]

end

/-- The last subtree of a node comes before the others. -/
example : (node 0 [node 1 [node 2 []], node 3 []]).places = [[], [1], [0], [0, 0]] := by
  decide

/-- The second tree is the first one with every label changed once and in its place. -/
structure Relabels (f : α → α) (t u : Tree α) : Prop where
  /-- The labels are changed one after the other. -/
  in_turn : u = t.places.foldl (relabelAt f) t
  /-- No label is changed twice. -/
  nodup : t.places.Nodup
  /-- None is left out, and nothing else is changed. -/
  mem_iff : ∀ p, p ∈ t.places ↔ (t.subtree? p).isSome = true
  length_eq : t.places.length = t.size
  /-- The recursion over the tree gives the same. -/
  eq_map : u = t.map f
  /-- Each subtree stays in its place. -/
  subtree?_eq : ∀ p, u.subtree? p = (t.subtree? p).map (map f)
  /-- The labels stay in their order. -/
  labels_eq : u.labels = t.labels.map f

theorem relabels_relabel (f : α → α) (t : Tree α) : Relabels f t (t.relabel f) where
  in_turn := relabel_eq_foldl f t
  nodup := nodup_places t
  mem_iff := fun _ => mem_places
  length_eq := length_places t
  eq_map := relabel_eq_map f t
  subtree?_eq := by
    intro p
    rw [relabel_eq_map, subtree?_map]
  labels_eq := by rw [relabel_eq_map, labels_map]

end Tree

/-- A reply has the objects of its request in the same places. -/
theorem Table.objectId_subtree?_settle (t : Table) (q : Request) (granted : Bool)
    (now : Millis) (p : Place) :
    (((t.evaluate q now).settle granted).subtree? p).map Reply.objectId =
      (q.subtree? p).map Request.objectId := by
  rw [evaluate, Reply.settle_eq_map, Tree.subtree?_map, Tree.subtree?_map, Option.map_map,
    Option.map_map]
  congr 1
  funext u
  simp [Reply.objectId, Request.objectId]

/-- The loops agree with the recursion over the tree. The walk lists the nodes in pre-order, as
many as there are, and a relabelling changes each of them once, in its place, whatever it does
to the labels. Giving the default lease to the nodes of a request and marking those of a reply
are such relabellings, and keep the objects in order. So the marked reply to a request has its
objects in the same places, and lists them in the same order. -/
theorem Table.traversals_agree (t : Table) (r : Request) (x : Reply) (granted : Bool)
    (default now : Millis) :
    (∀ (α : Type) (u : Tree α), u.nodes = u.preorder ∧ u.nodes.length = u.size ∧
        ∀ f, Tree.Relabels f u (u.relabel f)) ∧
      (Tree.Relabels (fun a => { a with lease := some (a.lease.getD default) }) r
          (r.withDefaultLease default) ∧
        (r.withDefaultLease default).objectIds = r.objectIds) ∧
      (Tree.Relabels (Answer.settle granted) x (x.settle granted) ∧
        (x.settle granted).objectIds = x.objectIds) ∧
      let reply := (t.evaluate (r.withDefaultLease default) now).settle granted
      (∀ p, (reply.subtree? p).map Reply.objectId = (r.subtree? p).map Request.objectId) ∧
        reply.objectIds = r.objectIds := by
  have hlease : (r.withDefaultLease default).objectIds = r.objectIds := by
    rw [Request.withDefaultLease_eq_map, Request.objectIds, Tree.labels_map, List.map_map]
    rfl
  have hplaces (p : Place) : ((r.withDefaultLease default).subtree? p).map Request.objectId =
      (r.subtree? p).map Request.objectId := by
    rw [Request.withDefaultLease_eq_map, Tree.subtree?_map, Option.map_map]
    congr 1
    funext u
    simp [Request.objectId]
  refine ⟨fun _ u => ⟨u.nodes_eq_preorder, u.length_nodes, fun f => Tree.relabels_relabel f u⟩,
    ⟨Tree.relabels_relabel _ r, hlease⟩,
    ⟨Tree.relabels_relabel _ x, Reply.objectIds_settle granted x⟩, ?_, ?_⟩
  · intro p
    rw [t.objectId_subtree?_settle, hplaces]
  · calc
      ((t.evaluate (r.withDefaultLease default) now).settle granted).objectIds
      _ = (t.evaluate (r.withDefaultLease default) now).objectIds := Reply.objectIds_settle _ _
      _ = (r.withDefaultLease default).objectIds := Table.objectIds_evaluate t _ now
      _ = r.objectIds := hlease

end LeasedLocks
