import ContentModels.Sorting
import Mathlib.Data.List.Sort
import Mathlib.Data.String.Basic

/-!
# Sorted lists

Sorting by a name is the library's insertion sort (`sortBy_eq_insertionSort`), so that what has been
sorted is in order, and two sorted lists of the same elements have the same names in the same order.
-/

namespace ContentModels

/-- Inserting by a key is inserting in the order of the keys. -/
theorem insertBy_eq_orderedInsert {α : Type} (key : α → String) (x : α) (l : List α) :
    insertBy key x l = l.orderedInsert (fun x y => key x ≤ key y) x := by
  induction l with
  | nil => rfl
  | cons y l ih => rw [insertBy, List.orderedInsert_cons, ih]

/-- Sorting inserts one element after the other. -/
theorem sortBy_eq_insertionSort {α : Type} (key : α → String) (l : List α) :
    sortBy key l = l.insertionSort fun x y => key x ≤ key y := by
  induction l with
  | nil => rfl
  | cons x l ih =>
    rw [List.insertionSort_cons, ← ih, ← insertBy_eq_orderedInsert, sortBy, sortBy, List.foldr_cons]

/-- What has been sorted is in order. -/
theorem sortBy_pairwise {α : Type} (key : α → String) (l : List α) :
    (sortBy key l).Pairwise fun x y => key x ≤ key y := by
  have : Std.Total fun x y : α => key x ≤ key y := ⟨fun x y => le_total (key x) (key y)⟩
  have : IsTrans α fun x y => key x ≤ key y := ⟨fun _ _ _ => le_trans⟩
  rw [sortBy_eq_insertionSort]
  exact List.pairwise_insertionSort _ l

/-- Two sorted lists of the same elements have the same keys in the same order. -/
theorem map_eq_of_perm_of_pairwise {α : Type} {key : α → String} {l l' : List α} (h : l.Perm l')
    (hl : l.Pairwise fun x y => key x ≤ key y) (hl' : l'.Pairwise fun x y => key x ≤ key y) :
    l.map key = l'.map key :=
  (h.map key).eq_of_pairwise' (List.pairwise_map.2 hl) (List.pairwise_map.2 hl')

end ContentModels
