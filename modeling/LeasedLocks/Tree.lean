/-!
# Trees

Rooted trees with a label at each node. `Tree.walk` visits a list of trees
with an explicit stack; `nodes_node` says that this is the pre-order: a node,
then each of its subtrees in turn.
-/

namespace LeasedLocks

/-- A label and the subtrees below it, in order. -/
inductive Tree (α : Type) where
  | node (label : α) (linked : List (Tree α))

namespace Tree

variable {α β γ : Type}

instance [Inhabited α] : Inhabited (Tree α) := ⟨node default []⟩

def label : Tree α → α
  | node a _ => a

def linked : Tree α → List (Tree α)
  | node _ ts => ts

@[simp] theorem label_node (a : α) (ts : List (Tree α)) : (node a ts).label = a := rfl

@[simp] theorem linked_node (a : α) (ts : List (Tree α)) : (node a ts).linked = ts := rfl

mutual

/-- The number of nodes. -/
def size : Tree α → Nat
  | node _ ts => sizeAll ts + 1

def sizeAll : List (Tree α) → Nat
  | [] => 0
  | t :: ts => t.size + sizeAll ts

end

@[simp] theorem sizeAll_nil : sizeAll ([] : List (Tree α)) = 0 := by rw [sizeAll]

@[simp] theorem sizeAll_cons (t : Tree α) (ts : List (Tree α)) :
    sizeAll (t :: ts) = t.size + sizeAll ts := by rw [sizeAll]

@[simp] theorem size_node (a : α) (ts : List (Tree α)) :
    (node a ts).size = sizeAll ts + 1 := by rw [size]

@[simp] theorem sizeAll_append (ts us : List (Tree α)) :
    sizeAll (ts ++ us) = sizeAll ts + sizeAll us := by
  induction ts with
  | nil => simp
  | cons t ts ih => simp [ih, Nat.add_assoc]

/-- All subtrees of the trees on the stack: the top one is visited and replaced
by the trees below it. -/
def walk : List (Tree α) → List (Tree α)
  | [] => []
  | node a ts :: rest => node a ts :: walk (ts ++ rest)
termination_by stack => sizeAll stack
decreasing_by simp

@[simp] theorem walk_nil : walk ([] : List (Tree α)) = [] := by rw [walk]

theorem walk_cons (a : α) (ts rest : List (Tree α)) :
    walk (node a ts :: rest) = node a ts :: walk (ts ++ rest) := by rw [walk]

/-- The stack holds what is still to be visited, in order. -/
theorem walk_append (ts us : List (Tree α)) : walk (ts ++ us) = walk ts ++ walk us := by
  induction ts using walk.induct with
  | case1 => simp
  | case2 a ts rest ih =>
    rw [List.cons_append, walk_cons, walk_cons, ← List.append_assoc, ih, List.cons_append]

/-- Each subtree once, in pre-order. -/
def nodes (t : Tree α) : List (Tree α) := walk [t]

theorem walk_eq_flatMap_nodes (ts : List (Tree α)) : walk ts = ts.flatMap nodes := by
  induction ts with
  | nil => simp
  | cons t ts ih =>
    rw [← List.singleton_append, walk_append, ih]
    rfl

/-- A node comes first, then its subtrees one after the other. -/
theorem nodes_node (a : α) (ts : List (Tree α)) :
    (node a ts).nodes = node a ts :: ts.flatMap nodes := by
  rw [nodes, walk_cons, List.append_nil, walk_eq_flatMap_nodes]

theorem length_walk (ts : List (Tree α)) : (walk ts).length = sizeAll ts := by
  induction ts using walk.induct with
  | case1 => simp
  | case2 a ts rest ih => rw [walk_cons, List.length_cons, ih]; simp; omega

/-- The walk visits as many subtrees as there are nodes. -/
theorem length_nodes (t : Tree α) : t.nodes.length = t.size := by
  rw [nodes, length_walk]; simp

/-- The labels in pre-order. -/
def labels (t : Tree α) : List α := t.nodes.map label

mutual

/-- Replaces every label and keeps the shape. -/
def map (f : α → β) : Tree α → Tree β
  | node a ts => node (f a) (mapAll f ts)

def mapAll (f : α → β) : List (Tree α) → List (Tree β)
  | [] => []
  | t :: ts => t.map f :: mapAll f ts

end

theorem mapAll_eq_map (f : α → β) (ts : List (Tree α)) : mapAll f ts = ts.map (map f) := by
  induction ts with
  | nil => rw [mapAll, List.map_nil]
  | cons t ts ih => rw [mapAll, ih, List.map_cons]

@[simp] theorem map_node (f : α → β) (a : α) (ts : List (Tree α)) :
    (node a ts).map f = node (f a) (ts.map (map f)) := by
  rw [map, mapAll_eq_map]

@[simp] theorem label_map (f : α → β) (t : Tree α) : (t.map f).label = f t.label := by
  cases t; simp

@[simp] theorem linked_map (f : α → β) (t : Tree α) :
    (t.map f).linked = t.linked.map (map f) := by
  cases t; simp

theorem walk_map (f : α → β) (ts : List (Tree α)) :
    walk (ts.map (map f)) = (walk ts).map (map f) := by
  induction ts using walk.induct with
  | case1 => simp
  | case2 a ts rest ih =>
    rw [List.map_cons, map_node, walk_cons, walk_cons, List.map_cons, map_node,
      ← List.map_append, ih]

/-- Replacing the labels changes every node once, in place. -/
theorem nodes_map (f : α → β) (t : Tree α) : (t.map f).nodes = t.nodes.map (map f) := by
  rw [nodes, nodes, ← walk_map, List.map_singleton]

@[simp] theorem labels_map (f : α → β) (t : Tree α) : (t.map f).labels = t.labels.map f := by
  simp only [labels, nodes_map, List.map_map]
  congr 1
  funext t
  simp

end Tree

end LeasedLocks
