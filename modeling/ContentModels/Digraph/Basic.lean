/-!
# Directed graphs

A finite directed graph, given by its nodes and by the successors of each node in the order of its
edges. `Digraph.preorder` is the order in which a depth-first walk meets the nodes, and
`Digraph.finish` the order in which it leaves them.

Both walks keep the nodes not yet visited and a stack of what is still to do. Visiting a node moves
its successors from the graph to the stack, so that the edges not yet followed and the entries of
the stack together grow fewer with every step.
-/

namespace ContentModels

/-- A directed graph. -/
structure Digraph (α : Type) where
  /-- The nodes. -/
  nodes : List α
  /-- The ends of the edges that leave a node, the oldest edge first. -/
  successors : α → List α

namespace Digraph

variable {α : Type} [DecidableEq α]

/-- The number of edges that leave the given nodes. -/
def edgeCount (g : Digraph α) : List α → Nat
  | [] => 0
  | x :: l => (g.successors x).length + g.edgeCount l

/-- The edges that leave a node of a list, and those that leave the others, are all of them. -/
theorem edgeCount_erase (g : Digraph α) {x : α} {l : List α} (h : x ∈ l) :
    (g.successors x).length + g.edgeCount (l.erase x) = g.edgeCount l := by
  induction l with
  | nil => cases h
  | cons y l ih =>
    rw [List.erase_cons]
    split
    · rename_i hxy
      rw [beq_iff_eq] at hxy
      rw [edgeCount, hxy]
    · rename_i hxy
      have hx : x ∈ l := (List.mem_cons.1 h).resolve_left fun e => hxy (beq_iff_eq.2 e.symm)
      have := ih hx
      rw [edgeCount, edgeCount]; omega

/-- Visiting a node replaces it by its successors on the stack, which leaves less to do. -/
theorem walk_measure (g : Digraph α) {x : α} {l : List α} (h : x ∈ l) (rest : List α) :
    g.edgeCount (l.erase x) + (g.successors x ++ rest).length <
      g.edgeCount l + (x :: rest).length := by
  have := g.edgeCount_erase h
  rw [List.length_append, List.length_cons]; omega

/-- The nodes met by depth-first walks from the entries of the stack, one after the other: a node
comes before what follows from it, and the oldest edge is followed first. Only nodes among the
unvisited ones are met, each once. -/
def walk (g : Digraph α) (unvisited stack : List α) : List α :=
  match stack with
  | [] => []
  | x :: rest =>
    if x ∈ unvisited then x :: g.walk (unvisited.erase x) (g.successors x ++ rest)
    else g.walk unvisited rest
termination_by g.edgeCount unvisited + stack.length
decreasing_by
  · exact g.walk_measure ‹_› rest
  · exact Nat.lt_succ_self _

/-- The nodes that can be reached from `x`, itself included, in the order in which a depth-first
walk meets them. -/
def preorder (g : Digraph α) (x : α) : List α := g.walk g.nodes [x]

/-- A step of a walk that tells when it is done with a node. -/
inductive Step (α : Type) where
  /-- To visit a node, unless it has been visited. -/
  | enter (x : α)
  /-- To leave a node, when all that follows from it has been visited. -/
  | leave (x : α)

/-- The steps that visit the given nodes, one after the other. -/
def Step.enters (l : List α) : List (Step α) := l.map enter

/-- Entering a node replaces it by its successors and by the step that leaves it, and makes the
unvisited nodes fewer by one. -/
theorem finish_measure (g : Digraph α) {x : α} {l : List α} (h : x ∈ l) (rest : List (Step α)) :
    g.edgeCount (l.erase x) + (l.erase x).length +
        (Step.enters (g.successors x) ++ .leave x :: rest).length <
      g.edgeCount l + l.length + (Step.enter x :: rest).length := by
  have := g.edgeCount_erase h
  have := List.length_erase_of_mem h
  have := List.length_pos_of_mem h
  rw [List.length_append, Step.enters, List.length_map, List.length_cons, List.length_cons]; omega

/-- The nodes in the order in which a depth-first walk leaves them. A node with an edge to itself
ends the walk. -/
def finish (g : Digraph α) (unvisited : List α) (stack : List (Step α)) : Except α (List α) :=
  match stack with
  | [] => .ok []
  | .leave x :: rest =>
    match g.finish unvisited rest with
    | .ok order => .ok (x :: order)
    | .error y => .error y
  | .enter x :: rest =>
    if x ∈ unvisited then
      -- An edge from a node to itself is a cycle that the order of leaving would not show.
      if x ∈ g.successors x then .error x
      else g.finish (unvisited.erase x) (Step.enters (g.successors x) ++ .leave x :: rest)
    else g.finish unvisited rest
termination_by g.edgeCount unvisited + unvisited.length + stack.length
decreasing_by
  · exact Nat.lt_succ_self _
  · exact g.finish_measure ‹_› rest
  · exact Nat.lt_succ_self _

/-- Goes through the nodes with those before them as seen, and finds the first one with a
predecessor that is neither seen nor itself; its oldest such predecessor is the answer. -/
def strayPredecessor? (g : Digraph α) (seen : List α) : List α → Option α
  | [] => none
  | x :: rest =>
    match g.nodes.find? fun y => x ∈ g.successors y && y ∉ x :: seen with
    | some y => some y
    | none => g.strayPredecessor? (x :: seen) rest

/-- A node of a cycle, if the graph has one. A walk leaves a node later than all that follows from
it unless there is a cycle, so in the reverse of that order every node comes behind its
predecessors. -/
def cycleNode? (g : Digraph α) : Option α :=
  match g.finish g.nodes (Step.enters g.nodes) with
  | .error x => some x
  | .ok order => g.strayPredecessor? [] order.reverse

end Digraph

end ContentModels
