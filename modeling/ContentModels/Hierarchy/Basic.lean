import ContentModels.ContentType
import ContentModels.Digraph.Basic

/-!
# Hierarchies of content types

Content types are linked by inheritance and composition: a type has a base, or none, and mixins.
They refer to each other by alias or, for the base, by identity. `Hierarchy.meant` says which types
an alias may mean to a type: the one of its own item type if there is one, and otherwise all of
that alias; a link needs one type to be meant.

Nothing here asks the hierarchy to be valid. What a valid hierarchy is, and that
`Hierarchy.ofTypes` accepts no other, is the matter of `Hierarchy.Validity`.
-/

namespace ContentModels

/-- The only element of a list of one, and none of any other. -/
def sole? {α : Type} : List α → Option α
  | [x] => some x
  | _ => none

/-- Content types in the order of their declaration. -/
structure Hierarchy where
  types : List ContentType

namespace Hierarchy

/-! ## Finding types -/

/-- The types of an alias, whatever their item types. -/
def withAlias (h : Hierarchy) (aliasName : String) : List ContentType :=
  h.types.filter fun t => t.aliasName = aliasName

/-- The type of an alias and an item type. -/
def find? (h : Hierarchy) (aliasName : String) (itemType : ItemType) : Option ContentType :=
  (h.withAlias aliasName).find? fun t => t.itemType = itemType

/-- The type of an identity. -/
def withId? (h : Hierarchy) (id : Int) : Option ContentType :=
  h.types.find? fun t => t.id = id

/-- The hierarchy's own type of the same alias and item type as `t`. -/
def own? (h : Hierarchy) (t : ContentType) : Option ContentType :=
  h.find? t.aliasName t.itemType

/-! ## Links -/

/-- The types that an alias may mean to a type of the given item type. -/
def meant (h : Hierarchy) (itemType : ItemType) (aliasName : String) : List ContentType :=
  match h.find? aliasName itemType with
  | some t => [t]
  | none => h.withAlias aliasName

/-- The base of a type of the hierarchy: the type that its base alias means or, where it has none,
its parent. -/
def baseOf? (h : Hierarchy) (t : ContentType) : Option ContentType :=
  match t.baseAlias with
  | some aliasName => sole? (h.meant t.itemType aliasName)
  | none => if t.parentId = 0 then none else h.withId? t.parentId

/-- The mixins of a type of the hierarchy, each once. -/
def mixinsOf (h : Hierarchy) (t : ContentType) : List ContentType :=
  (t.mixinAliases.filterMap fun aliasName => sole? (h.meant t.itemType aliasName)).eraseDups

/-- The base and then the mixins of a type of the hierarchy. -/
def supertypesOf (h : Hierarchy) (t : ContentType) : List ContentType :=
  (h.baseOf? t).toList ++ h.mixinsOf t

/-- The graph with an edge from each type to each of its supertypes. -/
def graph (h : Hierarchy) : Digraph ContentType := ⟨h.types, h.supertypesOf⟩

/-- The type and all that it inherits from or is composed of, directly or through others. -/
def closure (h : Hierarchy) (t : ContentType) : List ContentType := h.graph.preorder t

end Hierarchy

end ContentModels
