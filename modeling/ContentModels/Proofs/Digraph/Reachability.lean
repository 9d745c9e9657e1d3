import ContentModels.Digraph.Basic
import Mathlib.Logic.Relation

/-!
# What a depth-first walk meets

`Digraph.walk` from some nodes of a closed graph meets exactly the nodes that can be reached from
them (`mem_walk_iff`), each once (`walk_nodup`). For `preorder` this is `mem_preorder_iff`.

The proof that nothing is missed needs no paths: the nodes met hold the entries of the stack that
have not been visited (`mem_walk_of_mem_stack`), and with a node also its unvisited successors
(`mem_walk_of_edge`). So the nodes met by a walk that starts with everything unvisited are closed
under edges.
-/

namespace ContentModels

namespace Digraph

variable {α : Type}

/-- An edge leads from `x` to `y`. -/
def Edge (g : Digraph α) (x y : α) : Prop := y ∈ g.successors x

/-- `y` can be reached from `x` by zero or more edges. -/
def Reaches (g : Digraph α) : α → α → Prop := Relation.ReflTransGen g.Edge

/-- `y` can be reached from `x` by one or more edges. -/
def Leads (g : Digraph α) : α → α → Prop := Relation.TransGen g.Edge

/-- Every edge ends at a node. -/
def Closed (g : Digraph α) : Prop := ∀ x y, g.Edge x y → y ∈ g.nodes

/-- No node leads to itself. -/
def Acyclic (g : Digraph α) : Prop := ∀ x ∈ g.nodes, ¬ g.Leads x x

/-- A node reaches itself. -/
theorem Reaches.refl {g : Digraph α} (x : α) : g.Reaches x x := Relation.ReflTransGen.refl

/-- What is reached from a reached node is reached. -/
theorem Reaches.trans {g : Digraph α} {x y z : α} (hxy : g.Reaches x y) (hyz : g.Reaches y z) :
    g.Reaches x z :=
  Relation.ReflTransGen.trans hxy hyz

/-- The end of an edge is reached from its start. -/
theorem Edge.reaches {g : Digraph α} {x y : α} (h : g.Edge x y) : g.Reaches x y :=
  Relation.ReflTransGen.single h

/-- An edge followed by more of them. -/
theorem Edge.leads {g : Digraph α} {x y z : α} (hxy : g.Edge x y) (hyz : g.Reaches y z) :
    g.Leads x z :=
  Relation.TransGen.head' hxy hyz

/-- What is reached from a node is the node itself, or is reached from one of its successors. -/
theorem reaches_iff {g : Digraph α} {x z : α} :
    g.Reaches x z ↔ z = x ∨ ∃ y, g.Edge x y ∧ g.Reaches y z := by
  constructor
  · intro h
    rcases Relation.ReflTransGen.cases_head h with rfl | ⟨y, hxy, hyz⟩
    · exact .inl rfl
    · exact .inr ⟨y, hxy, hyz⟩
  · rintro (rfl | ⟨y, hxy, hyz⟩)
    · exact Reaches.refl _
    · exact hxy.reaches.trans hyz

/-- In a closed graph, what is reached from a node is a node. -/
theorem Closed.mem_of_reaches {g : Digraph α} (hg : g.Closed) {x y : α} (hx : x ∈ g.nodes)
    (h : g.Reaches x y) : y ∈ g.nodes := by
  induction h with
  | refl => exact hx
  | tail _ hyz _ => exact hg _ _ hyz

variable [DecidableEq α]

/-- Only unvisited nodes are met. -/
theorem mem_unvisited_of_mem_walk (g : Digraph α) {unvisited stack : List α} {y : α}
    (h : y ∈ g.walk unvisited stack) : y ∈ unvisited := by
  fun_induction g.walk unvisited stack with
  | case1 => cases h
  | case2 unvisited x rest hx ih =>
    rcases List.mem_cons.1 h with rfl | h
    · exact hx
    · exact List.mem_of_mem_erase (ih h)
  | case3 unvisited x rest _ ih => exact ih h

/-- No node is met twice. -/
theorem walk_nodup (g : Digraph α) {unvisited : List α} (h : unvisited.Nodup) (stack : List α) :
    (g.walk unvisited stack).Nodup := by
  fun_induction g.walk unvisited stack with
  | case1 => exact List.nodup_nil
  | case2 unvisited x rest _ ih =>
    refine List.nodup_cons.2 ⟨fun hx => ?_, ih (h.erase x)⟩
    exact (h.mem_erase_iff.1 (g.mem_unvisited_of_mem_walk hx)).1 rfl
  | case3 unvisited x rest _ ih => exact ih h

/-- A walk depends on the unvisited nodes and on the successors of each node, but not on the order
in which the former are listed. -/
theorem walk_congr {g g' : Digraph α} (hsuccessors : ∀ x, g.successors x = g'.successors x)
    {unvisited unvisited' : List α} (h : unvisited.Perm unvisited') (stack : List α) :
    g.walk unvisited stack = g'.walk unvisited' stack := by
  fun_induction g.walk unvisited stack generalizing unvisited' with
  | case1 => rw [walk]
  | case2 unvisited x rest hx ih =>
    rw [walk, if_pos (h.mem_iff.1 hx), ih (h.erase x), hsuccessors]
  | case3 unvisited x rest hx ih =>
    rw [walk, if_neg (fun hx' => hx (h.mem_iff.2 hx')), ih h]

/-- Whatever is met can be reached from an entry of the stack. -/
theorem exists_reaches_of_mem_walk (g : Digraph α) {unvisited stack : List α} {y : α}
    (h : y ∈ g.walk unvisited stack) : ∃ x ∈ stack, g.Reaches x y := by
  fun_induction g.walk unvisited stack with
  | case1 => cases h
  | case2 unvisited x rest _ ih =>
    rcases List.mem_cons.1 h with rfl | h
    · exact ⟨y, List.mem_cons_self, Reaches.refl y⟩
    · obtain ⟨z, hz, hzy⟩ := ih h
      rcases List.mem_append.1 hz with hz | hz
      · exact ⟨x, List.mem_cons_self, Edge.reaches hz |>.trans hzy⟩
      · exact ⟨z, List.mem_cons_of_mem x hz, hzy⟩
  | case3 unvisited x rest _ ih =>
    obtain ⟨z, hz, hzy⟩ := ih h
    exact ⟨z, List.mem_cons_of_mem x hz, hzy⟩

/-- An unvisited entry of the stack is met. -/
theorem mem_walk_of_mem_stack (g : Digraph α) {unvisited stack : List α} {y : α}
    (hy : y ∈ unvisited) (h : y ∈ stack) : y ∈ g.walk unvisited stack := by
  fun_induction g.walk unvisited stack with
  | case1 => cases h
  | case2 unvisited x rest _ ih =>
    by_cases hyx : y = x
    · exact List.mem_cons.2 (.inl hyx)
    · have hrest : y ∈ rest := (List.mem_cons.1 h).resolve_left hyx
      have herase : y ∈ unvisited.erase x := (List.mem_erase_of_ne hyx).2 hy
      exact List.mem_cons_of_mem x (ih herase (List.mem_append_right _ hrest))
  | case3 unvisited x rest hx ih =>
    have hyx : y ≠ x := fun e => hx (e ▸ hy)
    exact ih hy ((List.mem_cons.1 h).resolve_left hyx)

/-- With a node, its unvisited successors are met. -/
theorem mem_walk_of_edge (g : Digraph α) {unvisited stack : List α} {x y : α}
    (hx : x ∈ g.walk unvisited stack) (hxy : g.Edge x y) (hy : y ∈ unvisited) :
    y ∈ g.walk unvisited stack := by
  fun_induction g.walk unvisited stack with
  | case1 => cases hx
  | case2 unvisited z rest _ ih =>
    by_cases hyz : y = z
    · exact List.mem_cons.2 (.inl hyz)
    · have herase : y ∈ unvisited.erase z := (List.mem_erase_of_ne hyz).2 hy
      rcases List.mem_cons.1 hx with rfl | hx
      · exact List.mem_cons_of_mem x (g.mem_walk_of_mem_stack herase (List.mem_append_left _ hxy))
      · exact List.mem_cons_of_mem z (ih hx herase)
  | case3 unvisited z rest _ ih => exact ih hx hy

/-- A walk through a closed graph, nothing of it visited before, meets exactly what can be reached
from the entries of the stack. -/
theorem mem_walk_iff {g : Digraph α} (hg : g.Closed) {stack : List α}
    (hstack : ∀ x ∈ stack, x ∈ g.nodes) {y : α} :
    y ∈ g.walk g.nodes stack ↔ ∃ x ∈ stack, g.Reaches x y := by
  constructor
  · exact g.exists_reaches_of_mem_walk
  · rintro ⟨x, hx, h⟩
    induction h with
    | refl => exact g.mem_walk_of_mem_stack (hstack x hx) hx
    | tail _ hyz ih => exact g.mem_walk_of_edge ih hyz (hg _ _ hyz)

/-- The preorder from a node of a closed graph holds exactly what can be reached from the node. -/
theorem mem_preorder_iff {g : Digraph α} (hg : g.Closed) {x y : α} (hx : x ∈ g.nodes) :
    y ∈ g.preorder x ↔ g.Reaches x y := by
  have hstack : ∀ z ∈ [x], z ∈ g.nodes := fun z hz => List.mem_singleton.1 hz ▸ hx
  rw [preorder, mem_walk_iff hg hstack]
  simp

end Digraph

end ContentModels
