import ContentModels.Proofs.Digraph.Reachability
import ContentModels.Proofs.Loop
import Mathlib.Tactic.Tauto

/-!
# Three ways to search in depth

A search in depth is told in three ways, which meet the same nodes in the same order.
`Digraph.Visits` is a recursion with one list of the nodes met: what has been met is passed over,
and what has not is met before its successors are visited, one after the other. `Digraph.search` is
a loop on a stack which holds successors not met yet, some of them more than once. `Digraph.walk`,
by which the closures of types are computed, keeps the nodes not visited yet instead.

Neither the rules of the recursion nor the loop promise an end, so that both are the walk
(`visits_iff`, `search_eq`) also says that they end. Both follow the walk step by step: to visit the
successors of a node, and then what waits, is to visit the stack that holds them all.
-/

namespace ContentModels

namespace Digraph

variable {α : Type}

/-- Each node has either been met or is unvisited. -/
def Splits (g : Digraph α) (met unvisited : List α) : Prop :=
  ∀ x ∈ g.nodes, x ∈ met ↔ x ∉ unvisited

/-- At first, all nodes are unvisited. -/
theorem splits_nil (g : Digraph α) : g.Splits [] g.nodes := by
  intro x hx
  simp [hx]

variable [DecidableEq α]

/-! ## The recursion and the loop -/

/-- Nodes are visited one after the other. A node that has been met is passed over; one that has not
is met, and its successors are visited before the next node is. Given are the nodes met so far, in
the order in which they were met, those to visit, and the nodes that have been met in the end. -/
inductive Visits (g : Digraph α) : List α → List α → List α → Prop
  /-- There is no node to visit. -/
  | done {met : List α} : Visits g met [] met
  /-- The node has been met. -/
  | passOver {met rest after : List α} {x : α} :
    x ∈ met → Visits g met rest after → Visits g met (x :: rest) after
  /-- The node has not been met. -/
  | enter {met rest between after : List α} {x : α} :
    x ∉ met → Visits g (met ++ [x]) (g.successors x) between → Visits g between rest after →
      Visits g met (x :: rest) after

/-- Takes the uppermost node from the stack, and is done if there is none. A node that has been met
is passed over, and one that has not is met and replaced by those of its successors that have not.
The newest edge comes first on the stack, so that the oldest comes to lie on top. -/
def searchStep (g : Digraph α) : List α × List α → List α ⊕ List α × List α
  | (met, []) => .inl met
  | (met, x :: rest) =>
    if x ∈ met then .inr (met, rest)
    else .inr (met ++ [x], (g.successors x).filter (· ∉ met ++ [x]) ++ rest)

/-- What a loop on a stack meets, given what has been met before. -/
def search (g : Digraph α) (met stack : List α) : Part (List α) := loop g.searchStep (met, stack)

section Steps

variable {g : Digraph α} {met rest : List α} {x : α}

/-- The loop ends when the stack is empty. -/
theorem search_nil : g.search met [] = .some met := loop_eq_some rfl

/-- The loop passes over a node that has been met. -/
theorem search_of_mem (h : x ∈ met) : g.search met (x :: rest) = g.search met rest :=
  loop_eq_loop (if_pos h)

/-- The loop meets a node that has not been met. -/
theorem search_of_notMem (h : x ∉ met) :
    g.search met (x :: rest) =
      g.search (met ++ [x]) ((g.successors x).filter (· ∉ met ++ [x]) ++ rest) :=
  loop_eq_loop (if_neg h)

end Steps

/-! ## Both are the walk -/

/-- A node that is visited has been met. -/
theorem Splits.erase {g : Digraph α} {met unvisited : List α} (h : g.Splits met unvisited)
    (hnodup : unvisited.Nodup) (x : α) : g.Splits (met ++ [x]) (unvisited.erase x) := by
  intro y hy
  rw [List.mem_append, List.mem_singleton, h y hy, hnodup.mem_erase_iff]
  tauto

/-- Of some nodes, those that have not been met are the unvisited ones. -/
theorem Splits.filter_eq {g : Digraph α} {met unvisited l : List α} (h : g.Splits met unvisited)
    (hl : ∀ x ∈ l, x ∈ g.nodes) : l.filter (· ∉ met) = l.filter (· ∈ unvisited) := by
  refine List.filter_congr fun x hx => ?_
  have hiff := h x (hl x hx)
  by_cases hmem : x ∈ unvisited <;> simp_all

omit [DecidableEq α] in
/-- What is put on a stack of nodes, some of the successors of a node, are nodes. -/
theorem Closed.forall_mem_filter_append {g : Digraph α} (hclosed : g.Closed) (x : α) (p : α → Bool)
    {rest : List α} (hrest : ∀ y ∈ rest, y ∈ g.nodes) :
    ∀ y ∈ (g.successors x).filter p ++ rest, y ∈ g.nodes :=
  List.forall_mem_append.2 ⟨fun y hy => hclosed x y (List.mem_filter.1 hy).1, hrest⟩

omit [DecidableEq α] in
/-- To visit several nodes is to visit the first ones and then the others. -/
theorem visits_append_iff {g : Digraph α} {met l l' after : List α} :
    g.Visits met (l ++ l') after ↔
      ∃ between, g.Visits met l between ∧ g.Visits between l' after := by
  constructor
  · intro h
    induction l generalizing met with
    | nil => exact ⟨met, .done, h⟩
    | cons x l ih =>
      cases h with
      | passOver hx h =>
        obtain ⟨between, hfirst, hsecond⟩ := ih h
        exact ⟨between, .passOver hx hfirst, hsecond⟩
      | enter hx hbelow h =>
        obtain ⟨between, hfirst, hsecond⟩ := ih h
        exact ⟨between, .enter hx hbelow hfirst, hsecond⟩
  · rintro ⟨between, hfirst, hsecond⟩
    induction hfirst with
    | done => exact hsecond
    | passOver hx _ ih => exact .passOver hx (ih hsecond)
    | enter hx hbelow _ _ ih => exact .enter hx hbelow (ih hsecond)

/-- The recursion meets, from several nodes in turn, what a walk from them meets, and ends. -/
theorem visits_iff {g : Digraph α} (hclosed : g.Closed) {met unvisited stack after : List α}
    (hnodup : unvisited.Nodup) (hsplits : g.Splits met unvisited)
    (hstack : ∀ x ∈ stack, x ∈ g.nodes) :
    g.Visits met stack after ↔ after = met ++ g.walk unvisited stack := by
  fun_induction g.walk unvisited stack generalizing met with
  | case1 =>
    rw [List.append_nil]
    constructor
    · rintro ⟨⟩
      rfl
    · rintro rfl
      exact .done
  | case2 unvisited x rest hx ih =>
    obtain ⟨hxnode, hrest⟩ := List.forall_mem_cons.1 hstack
    have hmet : x ∉ met := fun hmem => (hsplits x hxnode).1 hmem hx
    have hboth : ∀ y ∈ g.successors x ++ rest, y ∈ g.nodes := fun y hy =>
      (List.mem_append.1 hy).elim (hclosed x y) (hrest y)
    have hall := ih (hnodup.erase x) (hsplits.erase hnodup x) hboth
    rw [List.append_assoc, visits_append_iff] at hall
    refine Iff.trans ?_ hall
    constructor
    · intro h
      cases h with
      | passOver hmem _ => exact absurd hmem hmet
      | enter _ hbelow h => exact ⟨_, hbelow, h⟩
    · rintro ⟨between, hbelow, h⟩
      exact .enter hmet hbelow h
  | case3 unvisited x rest hx ih =>
    obtain ⟨hxnode, hrest⟩ := List.forall_mem_cons.1 hstack
    have hmet : x ∈ met := (hsplits x hxnode).2 hx
    refine Iff.trans ?_ (ih hnodup hsplits hrest)
    constructor
    · intro h
      cases h with
      | passOver _ h => exact h
      | enter hnot _ _ => exact absurd hmet hnot
    · exact .passOver hmet

/-- The loop passes over nodes that have been met. -/
theorem search_append_of_forall_mem (g : Digraph α) {met : List α} (l rest : List α)
    (h : ∀ x ∈ l, x ∈ met) : g.search met (l ++ rest) = g.search met rest := by
  induction l with
  | nil => rfl
  | cons x l ih =>
    obtain ⟨hx, hl⟩ := List.forall_mem_cons.1 h
    rw [List.cons_append, search_of_mem hx, ih hl]

/-- The loop meets what a walk meets from a stack with the same unvisited entries. -/
theorem search_eq {g : Digraph α} (hclosed : g.Closed) {met unvisited stack thinned : List α}
    (hnodup : unvisited.Nodup) (hsplits : g.Splits met unvisited)
    (hthinned : ∀ x ∈ thinned, x ∈ g.nodes)
    (hsame : stack.filter (· ∈ unvisited) = thinned.filter (· ∈ unvisited)) :
    g.search met thinned = .some (met ++ g.walk unvisited stack) := by
  fun_induction g.walk unvisited stack generalizing met thinned with
  | case1 unvisited =>
    -- Nothing unvisited is left on the stack of the loop either.
    have hall : ∀ x ∈ thinned, x ∈ met := by
      intro x hx
      refine (hsplits x (hthinned x hx)).2 fun hmem => ?_
      exact List.not_mem_nil (hsame ▸ List.mem_filter.2 ⟨hx, decide_eq_true hmem⟩)
    have hskip := g.search_append_of_forall_mem thinned [] hall
    rw [List.append_nil] at hskip
    rw [hskip, search_nil, List.append_nil]
  | case2 unvisited x rest hx ih =>
    -- Above the node, the loop has only entries to pass over.
    rw [List.filter_cons_of_pos (by simpa using hx), eq_comm, List.filter_eq_cons_iff] at hsame
    obtain ⟨above, below, rfl, habove, -, hbelow⟩ := hsame
    have hall : ∀ y ∈ above, y ∈ met := fun y hy =>
      (hsplits y (hthinned y (List.mem_append_left _ hy))).2 (by simpa using habove y hy)
    have hnodes : ∀ y ∈ x :: below, y ∈ g.nodes := fun y hy =>
      hthinned y (List.mem_append_right _ hy)
    obtain ⟨hxnode, hbelownodes⟩ := List.forall_mem_cons.1 hnodes
    have hmet : x ∉ met := fun hmem => (hsplits x hxnode).1 hmem hx
    have hsplits' := hsplits.erase hnodup x
    -- Of the entries that were unvisited before, both stacks keep the same.
    have hkeep : rest.filter (· ∈ unvisited.erase x) = below.filter (· ∈ unvisited.erase x) := by
      have hagain := congrArg (List.filter (· ∈ unvisited.erase x)) hbelow
      simpa [List.filter_filter, hnodup.mem_erase_iff, and_assoc] using hagain.symm
    rw [g.search_append_of_forall_mem above _ hall, search_of_notMem hmet,
      hsplits'.filter_eq (hclosed x),
      ih (hnodup.erase x) hsplits' (hclosed.forall_mem_filter_append x _ hbelownodes) ?_,
      List.append_assoc]
    · rfl
    · simp [List.filter_append, hkeep]
  | case3 unvisited x rest hx ih =>
    rw [List.filter_cons_of_neg (by simpa using hx)] at hsame
    exact ih hnodup hsplits hthinned hsame

/-- From one node, the recursion and the loop meet its preorder. -/
theorem visits_and_search_eq_preorder {g : Digraph α} (hclosed : g.Closed)
    (hnodup : g.nodes.Nodup) {x : α} (hx : x ∈ g.nodes) :
    (∀ met, g.Visits [] [x] met ↔ met = g.preorder x) ∧
      g.search [] [x] = .some (g.preorder x) := by
  have hstack : ∀ y ∈ [x], y ∈ g.nodes := fun y hy => List.mem_singleton.1 hy ▸ hx
  exact ⟨fun met => visits_iff hclosed hnodup g.splits_nil hstack,
    search_eq hclosed hnodup g.splits_nil hstack rfl⟩

end Digraph

end ContentModels
