import ContentModels.Proofs.Digraph.Acyclicity
import ContentModels.Proofs.Digraph.Preorder
import Mathlib.Data.Set.Insert

/-!
# Nodes of cycles

What `Digraph.cycleNode?` finds is a node of a cycle, and not only one that leads to a cycle or that
a cycle leads to (`leads_of_cycleNode?`). A predecessor that stands behind a node in the reverse of
the order of leaving was left before it, although an edge leads from the predecessor to the node. So
the predecessor was entered on the way from the node, and the edge closes a cycle.

The check does without a second search. `Digraph.cycleSearch` tells it in two phases: a loop on a
stack of nodes lists them in the order in which they are left, and then, from each of them in the
reverse of that order, a search against the edges meets nodes; the second node that one search meets
is the answer. Both come to the same (`cycleSearch_eq`). The stack of the first phase holds nodes
where that of `Digraph.finish` holds steps (`Stands`): an entry is a step that enters the node until
the node has been discovered, and then the uppermost of its entries is the step that leaves it.
-/

namespace ContentModels

namespace Digraph

variable {α : Type} [DecidableEq α]

/-! ## What is found lies on a cycle -/

/-- A stray predecessor has not been seen, and an edge leads from it to a node of the list that it
does not come before. -/
theorem exists_of_strayPredecessor? (g : Digraph α) {seen l : List α} {y : α}
    (h : g.strayPredecessor? seen l = some y) :
    y ∈ g.nodes ∧ y ∉ seen ∧
      ∃ before x after, l = before ++ x :: after ∧ g.Edge y x ∧ y ≠ x ∧ y ∉ before := by
  induction l generalizing seen with
  | nil => cases h
  | cons z rest ih =>
    unfold strayPredecessor? at h
    split at h
    · rename_i hfind
      cases h
      have hstray := List.find?_some hfind
      simp only [Bool.and_eq_true, decide_eq_true_eq, List.mem_cons, not_or] at hstray
      exact ⟨List.mem_of_find?_eq_some hfind, hstray.2.2, [], z, rest, rfl, hstray.1, hstray.2.1,
        List.not_mem_nil⟩
    · obtain ⟨hy, hseen, before, x, after, rfl, hyx, hne, hbefore⟩ := ih h
      rw [List.mem_cons, not_or] at hseen
      refine ⟨hy, hseen.2, z :: before, x, after, rfl, hyx, hne, ?_⟩
      rw [List.mem_cons, not_or]
      exact ⟨hseen.1, hbefore⟩

/-- The node that the check for cycles finds leads to itself. -/
theorem leads_of_cycleNode? {g : Digraph α} (hnodup : g.nodes.Nodup) {y : α}
    (h : g.cycleNode? = some y) : y ∈ g.nodes ∧ g.Leads y y := by
  unfold cycleNode? at h
  split at h
  · rename_i x hfinish
    cases h
    obtain ⟨hy, hyy⟩ := g.mem_of_finish_eq_error hfinish
    exact ⟨hy, .single hyy⟩
  · rename_i order hfinish
    obtain ⟨hmem, hpair⟩ := mem_and_pairwise_of_finish hnodup hfinish
    obtain ⟨hy, -, before, x, after, hsplit, hyx, hne, hbefore⟩ := g.exists_of_strayPredecessor? h
    -- The predecessor stands behind the node, so it was left first.
    have hafter : y ∈ after := by
      have hall : y ∈ before ++ x :: after := hsplit ▸ List.mem_reverse.2 ((hmem y).2 hy)
      simpa [hne, hbefore] using hall
    have hback : order.reverse.Pairwise fun x y => g.Edge y x → g.Leads x y :=
      List.pairwise_reverse.2 hpair
    rw [hsplit, List.pairwise_append, List.pairwise_cons] at hback
    exact ⟨hy, Relation.TransGen.head hyx (hback.2.1.1 y hafter hyx)⟩

/-! ## The search in two phases -/

/-- The graph with its edges turned around. -/
def reverse (g : Digraph α) : Digraph α := ⟨g.nodes, fun x => g.nodes.filter (x ∈ g.successors ·)⟩

/-- A step of the first phase, given the nodes that have been discovered, those that have been left,
the last one in front, and the stack. The uppermost node is discovered, and stays on the stack below
those of its successors that have not been, the oldest edge on top. When it comes up again, it is
taken from the stack and left, unless that has been done before. A node with an edge to itself ends
the phase, and so does an empty stack. -/
def leaveStep (g : Digraph α) :
    List α × List α × List α → Except α (List α) ⊕ List α × List α × List α
  | (_, finished, []) => .inl (.ok finished)
  | (discovered, finished, x :: rest) =>
    if x ∈ discovered then
      .inr (discovered, if x ∈ finished then finished else x :: finished, rest)
    else if x ∈ g.successors x then .inl (.error x)
    else
      .inr (discovered ++ [x], finished,
        (g.successors x).filter (· ∉ discovered ++ [x]) ++ x :: rest)

/-- The first phase. It ends with the nodes that have been left, or with one that has an edge to
itself. -/
def leaveAll (g : Digraph α) (discovered finished stack : List α) : Part (Except α (List α)) :=
  loop g.leaveStep (discovered, finished, stack)

/-- The second phase: from each node in turn, a search that passes over what has been met before.
The second node that one search meets is the answer. -/
def secondMet? (g : Digraph α) (met : List α) : List α → Part (Option α)
  | [] => pure none
  | x :: rest => do
    let met' ← g.search met [x]
    match met'[met.length + 1]? with
    | some y => pure (some y)
    | none => g.secondMet? met' rest

/-- A node of a cycle, if the graph has one, as two searches find it: along the edges from each node
in turn, and then against the edges from the nodes that were left last. -/
def cycleSearch (g : Digraph α) : Part (Option α) := do
  match ← g.leaveAll [] [] g.nodes with
  | .error x => pure (some x)
  | .ok finished => g.reverse.secondMet? [] finished

section Steps

variable {g : Digraph α} {discovered finished rest : List α} {x : α}

/-- The first phase ends when the stack is empty. -/
theorem leaveAll_nil : g.leaveAll discovered finished [] = .some (.ok finished) := loop_eq_some rfl

/-- In the first phase, a node that has been discovered is left, unless that has been done. -/
theorem leaveAll_of_mem (h : x ∈ discovered) :
    g.leaveAll discovered finished (x :: rest) =
      g.leaveAll discovered (if x ∈ finished then finished else x :: finished) rest :=
  loop_eq_loop (if_pos h)

/-- The first phase ends with a node that has an edge to itself. -/
theorem leaveAll_of_edge_self (h : x ∉ discovered) (hxx : g.Edge x x) :
    g.leaveAll discovered finished (x :: rest) = .some (.error x) :=
  loop_eq_some ((if_neg h).trans (if_pos hxx))

/-- In the first phase, any other node is discovered. -/
theorem leaveAll_of_notMem (h : x ∉ discovered) (hxx : ¬ g.Edge x x) :
    g.leaveAll discovered finished (x :: rest) =
      g.leaveAll (discovered ++ [x]) finished
        ((g.successors x).filter (· ∉ discovered ++ [x]) ++ x :: rest) :=
  loop_eq_loop ((if_neg h).trans (if_neg hxx))

end Steps

/-! ## The first phase -/

/-- A stack of nodes stands for a stack of steps. The nodes that have been left by the time that the
stack comes up are done. -/
inductive Stands (unvisited : List α) : Set α → List (Step α) → List α → Prop
  /-- Nothing stands for nothing. -/
  | nil {done : Set α} : Stands unvisited done [] []
  /-- A node stands for the step that enters it, if nothing is left to do in it by then or all. -/
  | enter {done : Set α} {x : α} {steps : List (Step α)} {stack : List α} :
    x ∈ unvisited ∨ x ∈ done → Stands unvisited done steps stack →
      Stands unvisited done (.enter x :: steps) (x :: stack)
  /-- A step that enters a node may be missing if the node has been visited. -/
  | passed {done : Set α} {x : α} {steps : List (Step α)} {stack : List α} :
    x ∉ unvisited → Stands unvisited done steps stack →
      Stands unvisited done (.enter x :: steps) stack
  /-- A node that has been visited and is not done stands for the step that leaves it. -/
  | leave {done : Set α} {x : α} {steps : List (Step α)} {stack : List α} :
    x ∉ unvisited → x ∉ done → Stands unvisited (insert x done) steps stack →
      Stands unvisited done (.leave x :: steps) (x :: stack)

/-- When a node is visited, what lies below comes up when the node is done. -/
theorem Stands.erase {unvisited : List α} {x : α} (hnodup : unvisited.Nodup) (hx : x ∈ unvisited)
    {done : Set α} {steps : List (Step α)} {stack : List α}
    (h : Stands unvisited done steps stack) :
    Stands (unvisited.erase x) (insert x done) steps stack := by
  induction h with
  | nil => exact .nil
  | @enter done y _ _ hy _ ih =>
    refine .enter ?_ ih
    rw [hnodup.mem_erase_iff, Set.mem_insert_iff]
    tauto
  | passed hy _ ih => exact .passed (fun hmem => hy (List.mem_of_mem_erase hmem)) ih
  | @leave done y _ _ hy hdone _ ih =>
    have hyx : y ≠ x := fun e => hy (e ▸ hx)
    refine .leave (fun hmem => hy (List.mem_of_mem_erase hmem)) ?_ (Set.insert_comm x y done ▸ ih)
    rw [Set.mem_insert_iff, not_or]
    exact ⟨hyx, hdone⟩

/-- What has not been visited among some nodes stands for the steps that enter them. -/
theorem Stands.filter_append {unvisited : List α} {done : Set α} {steps : List (Step α)}
    {stack : List α} (h : Stands unvisited done steps stack) (l : List α) :
    Stands unvisited done (Step.enters l ++ steps) (l.filter (· ∈ unvisited) ++ stack) := by
  induction l with
  | nil => exact h
  | cons x l ih =>
    by_cases hx : x ∈ unvisited
    · rw [List.filter_cons_of_pos (by simpa using hx)]
      exact .enter (.inl hx) ih
    · rw [List.filter_cons_of_neg (by simpa using hx)]
      exact .passed hx ih

omit [DecidableEq α] in
/-- The step that leaves a node is that of the uppermost node, which is done from then on. -/
theorem Stands.of_leave {unvisited finished : List α} {x : α} {steps : List (Step α)}
    {stack : List α} (h : Stands unvisited {y | y ∈ finished} (.leave x :: steps) stack) :
    x ∉ unvisited ∧ x ∉ finished ∧
      ∃ below, stack = x :: below ∧ Stands unvisited {y | y ∈ x :: finished} steps below := by
  cases h with
  | @leave _ _ _ below hx hdone h =>
    have hset : insert x {y | y ∈ finished} = {y | y ∈ x :: finished} := by
      ext y
      simp
    exact ⟨hx, hdone, below, rfl, hset ▸ h⟩

/-- The loop of the first phase ends with the order in which the walk leaves the nodes, or with the
node that ends the walk. -/
theorem leaveAll_eq {g : Digraph α} (hclosed : g.Closed) {discovered unvisited finished : List α}
    {steps : List (Step α)} {stack : List α} (hnodup : unvisited.Nodup)
    (hsplits : g.Splits discovered unvisited) (hfinished : ∀ x ∈ finished, x ∉ unvisited)
    (hstack : ∀ x ∈ stack, x ∈ g.nodes) (h : Stands unvisited {x | x ∈ finished} steps stack) :
    g.leaveAll discovered finished stack =
      .some ((g.finish unvisited steps).map fun order => order.reverse ++ finished) := by
  fun_induction g.finish unvisited steps generalizing discovered finished stack with
  | case1 =>
    cases h
    exact leaveAll_nil
  | case2 unvisited x rest order hrest ih =>
    obtain ⟨hx, hdone, below, rfl, hstands⟩ := h.of_leave
    obtain ⟨hxnode, hbelow⟩ := List.forall_mem_cons.1 hstack
    rw [leaveAll_of_mem ((hsplits x hxnode).2 hx), if_neg hdone,
      ih hnodup hsplits (List.forall_mem_cons.2 ⟨hx, hfinished⟩) hbelow hstands, hrest]
    simp [Except.map]
  | case3 unvisited x rest y hrest ih =>
    obtain ⟨hx, hdone, below, rfl, hstands⟩ := h.of_leave
    obtain ⟨hxnode, hbelow⟩ := List.forall_mem_cons.1 hstack
    rw [leaveAll_of_mem ((hsplits x hxnode).2 hx), if_neg hdone,
      ih hnodup hsplits (List.forall_mem_cons.2 ⟨hx, hfinished⟩) hbelow hstands, hrest]
    rfl
  | case4 unvisited x rest hx hxx =>
    cases h with
    | enter _ h =>
      have hxnode := hstack x List.mem_cons_self
      exact leaveAll_of_edge_self (fun hmem => (hsplits x hxnode).1 hmem hx) hxx
    | passed hnot _ => exact absurd hx hnot
  | case5 unvisited x rest hx hxx ih =>
    cases h with
    | enter _ h =>
      have hxnode := hstack x List.mem_cons_self
      have hsplits' := hsplits.erase hnodup x
      have hnot : x ∉ unvisited.erase x := fun hmem => (hnodup.mem_erase_iff.1 hmem).1 rfl
      have hxfinished : x ∉ finished := fun hmem => hfinished x hmem hx
      have hstands := (Stands.leave hnot hxfinished (h.erase hnodup hx)).filter_append
        (g.successors x)
      rw [leaveAll_of_notMem (fun hmem => (hsplits x hxnode).1 hmem hx) hxx,
        hsplits'.filter_eq (hclosed x)]
      exact ih (hnodup.erase x) hsplits'
        (fun y hy hmem => hfinished y hy (List.mem_of_mem_erase hmem))
        (hclosed.forall_mem_filter_append x _ hstack) hstands
    | passed hnot _ => exact absurd hx hnot
  | case6 unvisited x rest hx ih =>
    cases h with
    | enter hor h =>
      -- The entry is an old one, of a node that has been left since.
      obtain ⟨hxnode, hbelow⟩ := List.forall_mem_cons.1 hstack
      have hdone : x ∈ finished := hor.resolve_left hx
      rw [leaveAll_of_mem ((hsplits x hxnode).2 hx), if_pos hdone]
      exact ih hnodup hsplits hfinished hbelow h
    | passed _ h => exact ih hnodup hsplits hfinished hstack h

/-! ## The second phase -/

/-- The first node met by a walk is the uppermost unvisited entry of the stack. -/
theorem head?_walk (g : Digraph α) (unvisited stack : List α) :
    (g.walk unvisited stack).head? = stack.find? (· ∈ unvisited) := by
  induction stack with
  | nil => rw [walk]; rfl
  | cons x rest ih =>
    unfold walk
    split
    · rename_i hx
      rw [List.find?_cons_of_pos (by simpa using hx)]
      rfl
    · rename_i hx
      rw [List.find?_cons_of_neg (by simpa using hx), ih]

/-- A graph with its edges turned around is closed. -/
theorem reverse_closed (g : Digraph α) : g.reverse.Closed :=
  fun _ _ hxy => (List.mem_filter.1 hxy).1

/-- No predecessor is stray if all of them have been seen or are the node itself. -/
theorem find?_stray_eq_none_iff {g : Digraph α} {seen : List α} {x : α} :
    g.nodes.find? (fun y => x ∈ g.successors y && y ∉ x :: seen) = none ↔
      ∀ y ∈ g.nodes, g.Edge y x → y ∈ x :: seen := by
  simp only [List.find?_eq_none, Bool.and_eq_true, decide_eq_true_eq, not_and, not_not, Edge]

/-- Of a node that has not been met, a search against the edges meets first the node itself and then
its oldest stray predecessor. -/
theorem exists_search_reverse {g : Digraph α} (hnodup : g.nodes.Nodup) {met seen : List α}
    (hseen : ∀ y, y ∈ met ↔ y ∈ seen) {x : α} (hx : x ∈ g.nodes) (hmet : x ∉ met) :
    ∃ l, g.reverse.search met [x] = .some (met ++ x :: l) ∧
      l.head? = g.nodes.find? fun y => x ∈ g.successors y && y ∉ x :: seen := by
  have hunvisited : ∀ y, y ∈ g.nodes.filter (· ∉ met) ↔ y ∈ g.nodes ∧ y ∉ met := by simp
  have hsplits : g.reverse.Splits met (g.nodes.filter (· ∉ met)) := by
    intro y hy
    rw [hunvisited]
    exact ⟨fun hmem h => h.2 hmem, fun h => by_contra fun hnot => h ⟨hy, hnot⟩⟩
  have hsearch : g.reverse.search met [x] =
      .some (met ++ g.reverse.walk (g.nodes.filter (· ∉ met)) [x]) :=
    search_eq g.reverse_closed (hnodup.filter _) hsplits
      (fun y hy => List.mem_singleton.1 hy ▸ hx) rfl
  rw [walk, if_pos ((hunvisited x).2 ⟨hx, hmet⟩)] at hsearch
  refine ⟨_, hsearch, ?_⟩
  rw [head?_walk, List.append_nil, reverse, List.find?_filter, ← List.head?_filter,
    ← List.head?_filter]
  refine congrArg List.head? (List.filter_congr fun y hy => ?_)
  have herase : y ∈ (g.nodes.filter (· ∉ met)).erase x ↔ y ∉ x :: seen := by
    rw [List.Nodup.mem_erase_iff (hnodup.filter _), hunvisited, hseen, List.mem_cons]
    tauto
  simp only [herase, decide_eq_true_eq, Bool.decide_and]

/-- The second node that a search against the edges meets is a stray predecessor. -/
theorem secondMet?_eq {g : Digraph α} (hnodup : g.nodes.Nodup) {met seen l : List α}
    (hseen : ∀ x, x ∈ met ↔ x ∈ seen) (hl : ∀ x ∈ l, x ∈ g.nodes)
    (hpredecessors : ∀ x ∈ seen, ∀ y ∈ g.nodes, g.Edge y x → y ∈ seen) :
    g.reverse.secondMet? met l = .some (g.strayPredecessor? seen l) := by
  induction l generalizing met seen with
  | nil => rfl
  | cons x rest ih =>
    obtain ⟨hx, hrest⟩ := List.forall_mem_cons.1 hl
    rw [secondMet?, strayPredecessor?]
    cases hfind : g.nodes.find? fun y => x ∈ g.successors y && y ∉ x :: seen with
    | some y =>
      -- The node has not been met, since its predecessors would have been seen.
      have hmet : x ∉ met := fun hmem => by
        have hnone := find?_stray_eq_none_iff.2 fun y hy hyx =>
          List.mem_cons_of_mem x (hpredecessors x ((hseen x).1 hmem) y hy hyx)
        rw [hfind] at hnone
        cases hnone
      obtain ⟨l, hsearch, hhead⟩ := exists_search_reverse hnodup hseen hx hmet
      rw [hfind, List.head?_eq_some_iff] at hhead
      obtain ⟨l, rfl⟩ := hhead
      simp [hsearch]
    | none =>
      have hclosed : ∀ z ∈ x :: seen, ∀ y ∈ g.nodes, g.Edge y z → y ∈ x :: seen := by
        intro z hz y hy hyz
        rcases List.mem_cons.1 hz with rfl | hz
        · exact find?_stray_eq_none_iff.1 hfind y hy hyz
        · exact List.mem_cons_of_mem x (hpredecessors z hz y hy hyz)
      by_cases hmet : x ∈ met
      · have hsame : ∀ y, y ∈ met ↔ y ∈ x :: seen := fun y => by
          rw [hseen, List.mem_cons, or_iff_right_of_imp fun e => e ▸ (hseen x).1 hmet]
        rw [search_of_mem hmet, search_nil]
        simpa using ih hsame hrest hclosed
      · obtain ⟨l, hsearch, hhead⟩ := exists_search_reverse hnodup hseen hx hmet
        rw [hfind, List.head?_eq_none_iff] at hhead
        subst hhead
        have hsame : ∀ y, y ∈ met ++ [x] ↔ y ∈ x :: seen := fun y => by
          rw [List.mem_append, List.mem_singleton, List.mem_cons, hseen, or_comm]
        rw [hsearch]
        simpa using ih hsame hrest hclosed

/-- The search in two phases ends with what the check for cycles finds. -/
theorem cycleSearch_eq {g : Digraph α} (hclosed : g.Closed) (hnodup : g.nodes.Nodup) :
    g.cycleSearch = .some g.cycleNode? := by
  have hstands : Stands g.nodes {x | x ∈ ([] : List α)} (Step.enters g.nodes) g.nodes := by
    have hnone : Stands g.nodes {x | x ∈ ([] : List α)} [] [] := .nil
    have hall := hnone.filter_append g.nodes
    rwa [List.append_nil, List.append_nil, List.filter_eq_self.2 (by simp)] at hall
  have hfirst := leaveAll_eq hclosed hnodup g.splits_nil (by simp) (fun _ hx => hx) hstands
  unfold cycleSearch cycleNode?
  rw [hfirst]
  cases hfinish : g.finish g.nodes (Step.enters g.nodes) with
  | error x => exact Part.bind_some _ _
  | ok order =>
    obtain ⟨hmem, -⟩ := mem_and_pairwise_of_finish hnodup hfinish
    have hl : ∀ x ∈ order.reverse, x ∈ g.nodes := fun x hx =>
      (hmem x).1 (List.mem_reverse.1 hx)
    have hsecond : g.reverse.secondMet? [] order.reverse =
        .some (g.strayPredecessor? [] order.reverse) :=
      secondMet?_eq hnodup (by simp) hl (by simp)
    simpa [Except.map] using hsecond

end Digraph

end ContentModels
