import ContentModels.Digraph.Basic
import Mathlib.Data.List.Forall2

/-!
# Walks of related graphs

Two graphs may have nodes of different kinds, such as things and the positions at which they stand.
If each node of one is related to one node of the other and the successors of related nodes are
related, then the walks from related nodes meet related nodes in the same order (`Digraph.rel_walk`,
`Digraph.rel_preorder`). So do the functions on lists that take elements for the same only if they
are equal.
-/

namespace ContentModels

variable {α β : Type} {R : α → β → Prop}

/-- In related lists, searches find related elements if related elements pass the tests alike. -/
theorem rel_find? {p : α → Bool} {q : β → Bool} (hpq : ∀ x y, R x y → p x = q y) {l : List α}
    {l' : List β} (h : List.Forall₂ R l l') : Option.Rel R (l.find? p) (l'.find? q) := by
  induction h with
  | nil => exact .none
  | cons hxy _ ih =>
    rw [List.find?_cons, List.find?_cons, hpq _ _ hxy]
    split
    · exact .some hxy
    · exact ih

/-- Related options have related lists. -/
theorem rel_toList {o : Option α} {o' : Option β} (h : Option.Rel R o o') :
    List.Forall₂ R o.toList o'.toList := by
  cases h with
  | none => exact .nil
  | some hxy => exact .cons hxy .nil

section BiUnique

variable [DecidableEq α] [DecidableEq β] (hR : Relator.BiUnique R)
include hR

/-- Related elements are erased from related lists. -/
theorem rel_erase {x : α} {y : β} (hxy : R x y) {l : List α} {l' : List β}
    (h : List.Forall₂ R l l') : List.Forall₂ R (l.erase x) (l'.erase y) := by
  induction h with
  | nil => exact .nil
  | @cons a b l l' hab hl ih =>
    have hsame : a = x ↔ b = y := Relator.rel_eq hR hab hxy
    rw [List.erase_cons, List.erase_cons]
    by_cases hax : a = x
    · simpa [hax, hsame.1 hax] using hl
    · simpa [hax, mt hsame.2 hax] using And.intro hab ih

/-- The repetitions in related lists are erased alike. -/
theorem rel_eraseDups : ∀ {l : List α} {l' : List β}, List.Forall₂ R l l' →
    List.Forall₂ R l.eraseDups l'.eraseDups
  | _, _, .nil => .nil
  | a :: l, b :: l', .cons hab hl => by
    have hother : List.Forall₂ R (l.filter fun c => !c == a) (l'.filter fun c => !c == b) := by
      refine List.rel_filter (fun c d hcd => ?_) hl
      have hsame : c = a ↔ d = b := Relator.rel_eq hR hcd hab
      simp [hsame]
    rw [List.eraseDups_cons, List.eraseDups_cons]
    exact .cons hab (rel_eraseDups hother)
termination_by l => l.length
decreasing_by exact Nat.lt_succ_of_le (List.length_filter_le _ l)

namespace Digraph

variable {g : Digraph α} {g' : Digraph β}
  (hsucc : ∀ x y, R x y → List.Forall₂ R (g.successors x) (g'.successors y))
include hsucc

/-- Walks on related stacks meet related nodes. -/
theorem rel_walk {unvisited stack : List α} {unvisited' stack' : List β}
    (hunvisited : List.Forall₂ R unvisited unvisited') (hstack : List.Forall₂ R stack stack') :
    List.Forall₂ R (g.walk unvisited stack) (g'.walk unvisited' stack') := by
  fun_induction g.walk unvisited stack generalizing unvisited' stack' with
  | case1 unvisited =>
    cases hstack
    rw [walk]
    exact .nil
  | case2 unvisited x rest hx ih =>
    -- One walk enters its node exactly if the other does.
    obtain _ | ⟨hxy, hrest⟩ := hstack
    rename_i y rest'
    have hy : y ∈ unvisited' := (List.rel_mem hR hxy hunvisited).1 hx
    rw [walk, if_pos hy]
    exact .cons hxy (ih (rel_erase hR hxy hunvisited) (List.rel_append (hsucc x y hxy) hrest))
  | case3 unvisited x rest hx ih =>
    obtain _ | ⟨hxy, hrest⟩ := hstack
    rename_i y rest'
    have hy : y ∉ unvisited' := fun hy => hx ((List.rel_mem hR hxy hunvisited).2 hy)
    rw [walk, if_neg hy]
    exact ih hunvisited hrest

/-- The walks from related nodes meet related nodes. -/
theorem rel_preorder (hnodes : List.Forall₂ R g.nodes g'.nodes) {x : α} {y : β} (hxy : R x y) :
    List.Forall₂ R (g.preorder x) (g'.preorder y) :=
  rel_walk hR hsucc hnodes (.cons hxy .nil)

end Digraph

end BiUnique

end ContentModels
