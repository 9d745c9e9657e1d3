/-!
# Sorting by a name

`sortBy key` sorts by the texts that `key` gives, in the order of their code points, and leaves
elements of the same text in the order in which they come.
-/

namespace ContentModels

/-- Inserts an element in front of the first one whose key is not smaller. -/
def insertBy {α : Type} (key : α → String) (x : α) : List α → List α
  | [] => [x]
  | y :: rest => if key x ≤ key y then x :: y :: rest else y :: insertBy key x rest

/-- Sorts by a key; elements of the same key keep their order. -/
def sortBy {α : Type} (key : α → String) (l : List α) : List α := l.foldr (insertBy key) []

/-- Inserting adds one element. -/
theorem insertBy_perm {α : Type} (key : α → String) (x : α) (l : List α) :
    (insertBy key x l).Perm (x :: l) := by
  induction l with
  | nil => exact .refl _
  | cons y l ih =>
    unfold insertBy
    split
    · exact .refl _
    · exact (ih.cons y).trans (.swap x y l)

/-- Sorting changes the order only. -/
theorem sortBy_perm {α : Type} (key : α → String) (l : List α) : (sortBy key l).Perm l := by
  induction l with
  | nil => exact .refl _
  | cons x l ih => exact (insertBy_perm key x _).trans (ih.cons x)

end ContentModels
