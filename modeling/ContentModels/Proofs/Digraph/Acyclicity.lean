import ContentModels.Proofs.Digraph.Reachability
import Mathlib.Data.List.Perm.Subperm

/-!
# When a graph has no cycle

`Digraph.cycleNode?` finds nothing exactly if the graph is acyclic (`cycleNode?_eq_none_iff`).

Every node is left later than its successors, unless they lead back to it (`finish_pairwise`). The
proof follows the stack of `Digraph.finish`: the entry that waits to leave a node lies below entries
of nodes that it leads to (`Step.Above`), and an unvisited successor of the node still has an entry
above it (`Awaited`). So in an acyclic graph an edge never goes against the reverse of the order of
leaving. Conversely, if no node has a predecessor behind it in that order, then an edge always goes
from an earlier place to a later one, and no cycle can close.
-/

namespace ContentModels

namespace Digraph

variable {α : Type}

/-- The node that a step is about. -/
def Step.node : Step α → α
  | enter x => x
  | leave x => x

/-- What holds of an entry of the stack and one below it: if the lower one waits to leave a node,
then this node leads to that of the upper one. -/
def Step.Above (g : Digraph α) (upper lower : Step α) : Prop :=
  ∀ x, lower = leave x → g.Leads x upper.node

/-- A node that waits to be left has above it an entry for each of its unvisited successors. -/
def Awaited (g : Digraph α) (unvisited : List α) (stack : List (Step α)) : Prop :=
  ∀ above x below, stack = above ++ .leave x :: below →
    ∀ y, g.Edge x y → y ∈ unvisited → .enter y ∈ above

/-- An entry that enters a node is among those that enter the nodes of a list if the node is. -/
theorem mem_enters {x : α} {l : List α} : .enter x ∈ Step.enters l ↔ x ∈ l := by
  simp [Step.enters]

/-- No entry that enters a node waits to leave one. -/
theorem leave_not_mem_enters {x : α} {l : List α} : .leave x ∉ Step.enters l := by
  simp [Step.enters]

/-- Entries that enter nodes lie above each other in any order. -/
theorem enters_pairwise_above (g : Digraph α) (l : List α) :
    (Step.enters l).Pairwise (Step.Above g) := by
  refine List.pairwise_iff_forall_sublist.2 fun {s s'} hs z hz => ?_
  have hmem : s' ∈ Step.enters l := hs.subset (by simp)
  exact absurd (hz ▸ hmem) leave_not_mem_enters

/-- What is left of a stack after its uppermost entry awaits no less, if the nodes that lost their
last entry are visited. -/
theorem Awaited.pop {g : Digraph α} {unvisited : List α} {s : Step α} {rest : List (Step α)}
    (h : g.Awaited unvisited (s :: rest)) {left : List α} (hleft : ∀ y ∈ left, y ∈ unvisited)
    (hs : ∀ y ∈ left, s ≠ .enter y) : g.Awaited left rest := by
  rintro above x below rfl y hxy hy
  have hmem := h (s :: above) x below rfl y hxy (hleft y hy)
  exact (List.mem_cons.1 hmem).resolve_left fun e => hs y hy e.symm

/-- More entries on top of a stack await no less, if the nodes to leave among them do not. -/
theorem Awaited.push {g : Digraph α} {unvisited : List α} {x : α} {rest : List (Step α)}
    (h : g.Awaited unvisited rest) :
    g.Awaited unvisited (Step.enters (g.successors x) ++ .leave x :: rest) := by
  intro above z below hsplit y hzy hy
  rcases List.append_eq_append_iff.1 hsplit with ⟨mid, rfl, hmid⟩ | ⟨mid, hmid, hrest⟩
  · rcases mid with _ | ⟨s, mid⟩
    · obtain ⟨e, rfl⟩ := List.cons.inj hmid
      cases e
      simpa using mem_enters.2 hzy
    · have hmem := h mid z below (List.cons.inj hmid).2 y hzy hy
      exact List.mem_append_right _ (List.mem_cons_of_mem s hmem)
  · rcases mid with _ | ⟨s, mid⟩
    · obtain ⟨e, rfl⟩ := List.cons.inj hrest
      cases e
      rw [List.append_nil] at hmid
      exact hmid ▸ mem_enters.2 hzy
    · obtain ⟨rfl, -⟩ := List.cons.inj hrest
      have : .leave z ∈ Step.enters (g.successors x) := by rw [hmid]; simp
      exact absurd this leave_not_mem_enters

/-- In a closed graph, what leads to itself is a node. -/
theorem Acyclic.not_leads {g : Digraph α} (hclosed : g.Closed) (hg : g.Acyclic) (x : α) :
    ¬ g.Leads x x := by
  intro h
  obtain ⟨y, -, hyx⟩ := Relation.TransGen.tail'_iff.1 h
  exact hg x (hclosed y x hyx) h

variable [DecidableEq α]

/-- Only nodes that are unvisited, or that wait to be left, are left. -/
theorem mem_or_mem_of_mem_finish (g : Digraph α) {unvisited : List α} {stack : List (Step α)}
    {order : List α} (h : g.finish unvisited stack = .ok order) {y : α} (hy : y ∈ order) :
    y ∈ unvisited ∨ .leave y ∈ stack := by
  fun_induction g.finish unvisited stack generalizing order with
  | case1 => cases h; cases hy
  | case2 unvisited x rest order' hrest ih =>
    cases h
    rcases List.mem_cons.1 hy with rfl | hy
    · exact .inr List.mem_cons_self
    · exact (ih hrest hy).imp_right (List.mem_cons_of_mem _)
  | case3 => cases h
  | case4 => cases h
  | case5 unvisited x rest hx _ ih =>
    rcases ih h hy with hy | hy
    · exact .inl (List.mem_of_mem_erase hy)
    · rcases List.mem_append.1 hy with hy | hy
      · exact absurd hy leave_not_mem_enters
      · rcases List.mem_cons.1 hy with e | hy
        · cases e
          exact .inl hx
        · exact .inr (List.mem_cons_of_mem _ hy)
  | case6 unvisited x rest _ ih => exact (ih h hy).imp_right (List.mem_cons_of_mem _)

/-- An unvisited node that is entered, or one that waits to be left, is left. -/
theorem mem_finish (g : Digraph α) {unvisited : List α} {stack : List (Step α)} {order : List α}
    (h : g.finish unvisited stack = .ok order) {y : α}
    (hy : .leave y ∈ stack ∨ y ∈ unvisited ∧ .enter y ∈ stack) : y ∈ order := by
  fun_induction g.finish unvisited stack generalizing order with
  | case1 => simp at hy
  | case2 unvisited x rest order' hrest ih =>
    cases h
    by_cases hyx : y = x
    · exact List.mem_cons.2 (.inl hyx)
    · refine List.mem_cons_of_mem x (ih hrest ?_)
      simpa [hyx] using hy
  | case3 => cases h
  | case4 => cases h
  | case5 unvisited x rest _ _ ih =>
    apply ih h
    by_cases hyx : y = x
    · subst hyx
      exact .inl (List.mem_append_right _ List.mem_cons_self)
    · rcases hy with hy | ⟨hy, hmem⟩
      · left
        simpa [hyx, Step.enters] using hy
      · right
        refine ⟨(List.mem_erase_of_ne hyx).2 hy, ?_⟩
        have hrest : .enter y ∈ rest := by simpa [hyx] using hmem
        exact List.mem_append_right _ (List.mem_cons_of_mem _ hrest)
  | case6 unvisited x rest hx ih =>
    apply ih h
    rcases hy with hy | ⟨hy, hmem⟩
    · left
      simpa using hy
    · right
      have hyx : y ≠ x := fun e => hx (e ▸ hy)
      exact ⟨hy, by simpa [hyx] using hmem⟩

/-- A walk is ended by an unvisited node with an edge to itself. -/
theorem mem_of_finish_eq_error (g : Digraph α) {unvisited : List α} {stack : List (Step α)} {x : α}
    (h : g.finish unvisited stack = .error x) : x ∈ unvisited ∧ g.Edge x x := by
  fun_induction g.finish unvisited stack with
  | case1 => cases h
  | case2 => cases h
  | case3 unvisited y rest z hrest ih =>
    cases h
    exact ih hrest
  | case4 unvisited y rest hy hyy =>
    cases h
    exact ⟨hy, hyy⟩
  | case5 unvisited y rest _ _ ih => exact (ih h).imp_left List.mem_of_mem_erase
  | case6 unvisited y rest _ ih => exact ih h

/-- A node is left later than its successors, unless they lead back to it. -/
theorem finish_pairwise {g : Digraph α} {unvisited : List α} {stack : List (Step α)}
    {order : List α} (hnodup : unvisited.Nodup) (habove : stack.Pairwise (Step.Above g))
    (hawaited : g.Awaited unvisited stack) (h : g.finish unvisited stack = .ok order) :
    order.Pairwise fun x y => g.Edge x y → g.Leads y x := by
  fun_induction g.finish unvisited stack generalizing order with
  | case1 =>
    cases h
    exact .nil
  | case2 unvisited x rest order' hrest ih =>
    cases h
    obtain ⟨hx, habove⟩ := List.pairwise_cons.1 habove
    have hpair := ih hnodup habove (hawaited.pop (fun y hy => hy) (by simp)) hrest
    refine List.pairwise_cons.2 ⟨fun y hy hxy => ?_, hpair⟩
    rcases g.mem_or_mem_of_mem_finish hrest hy with hy | hy
    · -- A successor not visited yet would have an entry above that of `x`.
      exact absurd (hawaited [] x rest rfl y hxy hy) List.not_mem_nil
    · -- A successor that waits to be left leads to `x`.
      exact hx _ hy y rfl
  | case3 => cases h
  | case4 => cases h
  | case5 unvisited x rest hx _ ih =>
    obtain ⟨hx', habove⟩ := List.pairwise_cons.1 habove
    refine ih (hnodup.erase x) ?_ ?_ h
    · refine List.pairwise_append.2
        ⟨enters_pairwise_above g _, List.pairwise_cons.2 ⟨hx', habove⟩, ?_⟩
      intro s hs s' hs' z hz
      obtain ⟨y, hy, rfl⟩ := List.mem_map.1 hs
      rcases List.mem_cons.1 hs' with rfl | hs'
      · cases hz
        exact .single hy
      · exact (hx' s' hs' z hz).tail hy
    · refine (hawaited.pop (fun y hy => List.mem_of_mem_erase hy) fun y hy e => ?_).push
      cases e
      exact (hnodup.mem_erase_iff.1 hy).1 rfl
  | case6 unvisited x rest hx ih =>
    obtain ⟨-, habove⟩ := List.pairwise_cons.1 habove
    refine ih hnodup habove (hawaited.pop (fun y hy => hy) fun y hy e => ?_) h
    cases e
    exact hx hy

/-- A walk through all nodes leaves each of them, and later than its successors, unless they lead
back to it. -/
theorem mem_and_pairwise_of_finish {g : Digraph α} (hnodup : g.nodes.Nodup) {order : List α}
    (h : g.finish g.nodes (Step.enters g.nodes) = .ok order) :
    (∀ x, x ∈ order ↔ x ∈ g.nodes) ∧ order.Pairwise fun x y => g.Edge x y → g.Leads y x := by
  have hawaited : g.Awaited g.nodes (Step.enters g.nodes) := by
    intro above x below e
    have : .leave x ∈ Step.enters g.nodes := by rw [e]; simp
    exact absurd this leave_not_mem_enters
  refine ⟨fun x => ⟨fun hx => ?_, fun hx => g.mem_finish h (.inr ⟨hx, mem_enters.2 hx⟩)⟩,
    finish_pairwise hnodup (enters_pairwise_above g _) hawaited h⟩
  exact (g.mem_or_mem_of_mem_finish h hx).resolve_right leave_not_mem_enters

/-- No predecessor is stray if each node has its predecessors among those seen, itself, or those
that no edge leads back from. -/
theorem strayPredecessor?_eq_none (g : Digraph α) {seen l : List α}
    (hnodes : ∀ y ∈ g.nodes, y ∈ seen ∨ y ∈ l) (hl : l.Pairwise fun x y => ¬ g.Edge y x) :
    g.strayPredecessor? seen l = none := by
  induction l generalizing seen with
  | nil => rfl
  | cons x rest ih =>
    obtain ⟨hx, hrest⟩ := List.pairwise_cons.1 hl
    have hfind : g.nodes.find? (fun y => x ∈ g.successors y && y ∉ x :: seen) = none := by
      refine List.find?_eq_none.2 fun y hy h => ?_
      simp only [Bool.and_eq_true, decide_eq_true_eq, List.mem_cons, not_or] at h
      obtain ⟨hyx, hne, hseen⟩ := h
      have hmem := (hnodes y hy).resolve_left hseen
      exact hx y ((List.mem_cons.1 hmem).resolve_left hne) hyx
    rw [strayPredecessor?, hfind]
    refine ih (fun y hy => ?_) hrest
    rcases hnodes y hy with hy | hy
    · exact .inl (List.mem_cons_of_mem x hy)
    · rcases List.mem_cons.1 hy with rfl | hy
      · exact .inl List.mem_cons_self
      · exact .inr hy

/-- If no predecessor is stray, an edge between different nodes goes from one that has been seen, or
from an earlier place of the list to a later one. -/
theorem idxOf_lt_of_strayPredecessor? (g : Digraph α) {seen l : List α}
    (h : g.strayPredecessor? seen l = none) {x y : α} (hx : x ∈ l) (hy : y ∈ g.nodes)
    (hyx : g.Edge y x) (hne : y ≠ x) : y ∈ seen ∨ l.idxOf y < l.idxOf x := by
  induction l generalizing seen with
  | nil => cases hx
  | cons z rest ih =>
    unfold strayPredecessor? at h
    split at h
    · cases h
    · rename_i hfind
      -- The node itself is looked at now, or the edge is found further on.
      by_cases hxz : x = z
      · subst hxz
        have hstray := List.find?_eq_none.1 hfind y hy
        simp only [Bool.and_eq_true, decide_eq_true_eq, List.mem_cons, not_and, not_not] at hstray
        exact .inl ((hstray hyx).resolve_left hne)
      · rcases ih h ((List.mem_cons.1 hx).resolve_left hxz) with hseen | hlt
        · rcases List.mem_cons.1 hseen with rfl | hseen
          · right
            rw [List.idxOf_cons_self, List.idxOf_cons_ne _ (Ne.symm hxz)]
            exact Nat.succ_pos _
          · exact .inl hseen
        · by_cases hyz : y = z
          · right
            rw [hyz, List.idxOf_cons_self, List.idxOf_cons_ne _ (Ne.symm hxz)]
            exact Nat.succ_pos _
          · right
            rw [List.idxOf_cons_ne _ (Ne.symm hxz), List.idxOf_cons_ne _ (Ne.symm hyz)]
            exact Nat.succ_lt_succ hlt

/-- A walk that ends with an order has come to no node with an edge to itself. -/
theorem not_edge_self_of_finish (g : Digraph α) {unvisited : List α} {stack : List (Step α)}
    {order : List α} (h : g.finish unvisited stack = .ok order) {x : α} (hx : x ∈ unvisited)
    (henter : .enter x ∈ stack) : ¬ g.Edge x x := by
  fun_induction g.finish unvisited stack generalizing order with
  | case1 => cases henter
  | case2 unvisited y rest order' hrest ih => exact ih hrest hx (by simpa using henter)
  | case3 => cases h
  | case4 => cases h
  | case5 unvisited y rest _ hyy ih =>
    by_cases hxy : x = y
    · exact hxy ▸ hyy
    · have hrest : .enter x ∈ rest := by simpa [hxy] using henter
      exact ih h ((List.mem_erase_of_ne hxy).2 hx)
        (List.mem_append_right _ (List.mem_cons_of_mem _ hrest))
  | case6 unvisited y rest hy ih =>
    have hxy : x ≠ y := fun e => hy (e ▸ hx)
    exact ih h hx (by simpa [hxy] using henter)

/-- A graph in which every edge goes from an earlier to a later place of a list is acyclic. -/
theorem acyclic_of_idxOf {g : Digraph α} (hclosed : g.Closed) (l : List α)
    (h : ∀ x ∈ g.nodes, ∀ y, g.Edge x y → l.idxOf x < l.idxOf y) : g.Acyclic := by
  intro x hx hxx
  have hlt : ∀ y, g.Leads x y → y ∈ g.nodes ∧ l.idxOf x < l.idxOf y := by
    intro y hxy
    induction hxy with
    | single hxy => exact ⟨hclosed _ _ hxy, h x hx _ hxy⟩
    | tail _ hyz ih => exact ⟨hclosed _ _ hyz, Nat.lt_trans ih.2 (h _ ih.1 _ hyz)⟩
  exact Nat.lt_irrefl _ (hlt x hxx).2

/-- Of a closed graph, the check for cycles finds nothing exactly if there is no cycle. -/
theorem cycleNode?_eq_none_iff {g : Digraph α} (hclosed : g.Closed) (hnodup : g.nodes.Nodup) :
    g.cycleNode? = none ↔ g.Acyclic := by
  unfold cycleNode?
  cases hfinish : g.finish g.nodes (Step.enters g.nodes) with
  | error x =>
    -- An edge from a node to itself is a cycle.
    obtain ⟨hx, hxx⟩ := g.mem_of_finish_eq_error hfinish
    simp only [reduceCtorEq, false_iff]
    exact fun hg => hg x hx (.single hxx)
  | ok order =>
    -- All nodes are left, so each edge has both ends in the order.
    obtain ⟨hmem, hpair⟩ := mem_and_pairwise_of_finish hnodup hfinish
    constructor
    · intro h
      refine acyclic_of_idxOf hclosed order.reverse fun x hx y hxy => ?_
      have hne : x ≠ y := by
        rintro rfl
        exact g.not_edge_self_of_finish hfinish hx (mem_enters.2 hx) hxy
      have hy : y ∈ order.reverse := List.mem_reverse.2 ((hmem y).2 (hclosed x y hxy))
      exact (g.idxOf_lt_of_strayPredecessor? h hy hx hxy hne).resolve_left List.not_mem_nil
    · intro hg
      have hforward : order.Pairwise fun x y => ¬ g.Edge x y := by
        refine hpair.imp fun {x y} hback hxy => ?_
        exact hg.not_leads hclosed y ((hback hxy).tail hxy)
      exact g.strayPredecessor?_eq_none (fun y hy => .inr (List.mem_reverse.2 ((hmem y).2 hy)))
        (List.pairwise_reverse.2 hforward)

/-- What holds of a node whenever it holds of all that the node leads to holds of every node of an
acyclic graph. -/
theorem Acyclic.induction {g : Digraph α} (hclosed : g.Closed) (hnodup : g.nodes.Nodup)
    (hg : g.Acyclic) {P : α → Prop} (h : ∀ x ∈ g.nodes, (∀ y, g.Leads x y → P y) → P x) :
    ∀ x ∈ g.nodes, P x := by
  -- A node reaches more than what it leads to does, namely itself besides.
  intro x hx
  generalize hn : (g.preorder x).length = n
  induction n using Nat.strongRecOn generalizing x with
  | ind n ih =>
    refine h x hx fun y hxy => ?_
    have hreaches : g.Reaches x y := hxy.to_reflTransGen
    have hy : y ∈ g.nodes := hclosed.mem_of_reaches hx hreaches
    have hnot : x ∉ g.preorder y := fun hmem =>
      hg x hx (Relation.TransGen.trans_left hxy ((mem_preorder_iff hclosed hy).1 hmem))
    have hall : (x :: g.preorder y).Nodup := List.nodup_cons.2 ⟨hnot, g.walk_nodup hnodup _⟩
    have hsub : x :: g.preorder y ⊆ g.preorder x := by
      intro z hz
      rw [mem_preorder_iff hclosed hx]
      rcases List.mem_cons.1 hz with rfl | hz
      · exact Reaches.refl z
      · exact hreaches.trans ((mem_preorder_iff hclosed hy).1 hz)
    have hlt : (g.preorder y).length < n := hn ▸ (hall.subperm hsub).length_le
    exact ih _ hlt y hy rfl

end Digraph

end ContentModels
