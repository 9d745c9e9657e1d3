import ContentModels.Fault
import ContentModels.Hierarchy.Interfaces
import Std.Data.HashMap

/-!
# Indexed hierarchies

Types can be found without a search if their positions are kept by alias and by identity. The index
is made in one pass over the types, which also tells the first type that is known by the same as an
earlier one.

With an index, links are positions, and what a hierarchy says of its types is worked out once for
each of them and kept in a table with an entry for each position. A question about a type first
looks up its position, by alias and item type.
-/

namespace ContentModels

/-- Where the types of a list stand in it. -/
structure Index where
  /-- The positions of the types of each alias, in their order. -/
  byAlias : Std.HashMap String (List Nat) := ∅
  /-- The position of the type of each identity. -/
  byId : Std.HashMap Int Nat := ∅

namespace Index

/-- The positions of the types of an alias. -/
def places (index : Index) (aliasName : String) : List Nat := index.byAlias.getD aliasName []

/-- The index with one more type of the list, which stands at the position `i`, unless it shares
alias and item type, or else its identity, with a type of the index. -/
def add (types : List ContentType) (index : Index) (i : Nat) (t : ContentType) :
    Except Fault Index :=
  let same := index.places t.aliasName
  if same.any fun j => types[j]?.any fun u => u.itemType = t.itemType then
    .error (.duplicateAlias t.aliasName t.itemType)
  else if index.byId.contains t.id then .error (.duplicateId t.id)
  else .ok ⟨index.byAlias.insert t.aliasName (same ++ [i]), index.byId.insert t.id i⟩

/-- The index with the further types of the list, of which the first stands at the position `i`. -/
def addAll (types : List ContentType) (index : Index) (i : Nat) :
    List ContentType → Except Fault Index
  | [] => .ok index
  | t :: rest =>
    match index.add types i t with
    | .error fault => .error fault
    | .ok index => index.addAll types (i + 1) rest

/-- The index of a list of types. -/
def ofTypes (types : List ContentType) : Except Fault Index := addAll types {} 0 types

end Index

/-- Content types in the order of their declaration, with an index. -/
structure IndexedHierarchy where
  types : List ContentType
  index : Index

namespace IndexedHierarchy

/-! ## Finding types -/

/-- The types at the given positions. -/
def read (g : IndexedHierarchy) (places : List Nat) : List ContentType :=
  places.filterMap (g.types[·]?)

/-- The types of an alias, whatever their item types. -/
def withAlias (g : IndexedHierarchy) (aliasName : String) : List ContentType :=
  g.read (g.index.places aliasName)

/-- The type of an alias and an item type. -/
def find? (g : IndexedHierarchy) (aliasName : String) (itemType : ItemType) : Option ContentType :=
  (g.withAlias aliasName).find? fun t => t.itemType = itemType

/-- The type of an identity. -/
def withId? (g : IndexedHierarchy) (id : Int) : Option ContentType :=
  g.index.byId[id]?.bind (g.types[·]?)

/-- The position of the type of an alias and an item type. -/
def placeOf? (g : IndexedHierarchy) (aliasName : String) (itemType : ItemType) : Option Nat :=
  (g.index.places aliasName).find? fun i => g.types[i]?.any fun t => t.itemType = itemType

/-- The position of the hierarchy's own type of the same alias and item type as `t`. -/
def place? (g : IndexedHierarchy) (t : ContentType) : Option Nat :=
  g.placeOf? t.aliasName t.itemType

/-! ## Links -/

/-- The positions of the types that an alias may mean to a type of the given item type. -/
def meant (g : IndexedHierarchy) (itemType : ItemType) (aliasName : String) : List Nat :=
  match g.placeOf? aliasName itemType with
  | some i => [i]
  | none => g.index.places aliasName

/-- The position of the base of a type. -/
def basePlace? (g : IndexedHierarchy) (t : ContentType) : Option Nat :=
  match t.baseAlias with
  | some aliasName => sole? (g.meant t.itemType aliasName)
  | none => if t.parentId = 0 then none else g.index.byId[t.parentId]?

/-- The positions of the mixins of a type, each once. -/
def mixinPlaces (g : IndexedHierarchy) (t : ContentType) : List Nat :=
  (t.mixinAliases.filterMap fun aliasName => sole? (g.meant t.itemType aliasName)).eraseDups

/-- The graph with an edge from each position to those of the base and the mixins. -/
def graph (g : IndexedHierarchy) : Digraph Nat where
  nodes := .range g.types.length
  successors i := g.types[i]?.elim [] fun t => (g.basePlace? t).toList ++ g.mixinPlaces t

/-! ## The table -/

/-- What is worked out for a type, in positions. -/
structure Entry where
  /-- The base. -/
  base : Option Nat
  /-- The mixins. -/
  mixins : List Nat
  /-- The mixins whose interfaces it declares. -/
  declared : List Nat
  /-- The mixins whose properties it implements. -/
  implemented : List Nat

/-- The entry for a type. -/
def entry (g : IndexedHierarchy) (t : ContentType) : Entry :=
  let inherited := (g.basePlace? t).elim [] g.graph.preorder
  let declared := (g.mixinPlaces t).filter (· ∉ inherited)
  { base := g.basePlace? t
    mixins := g.mixinPlaces t
    declared
    implemented := (declared.flatMap fun mixin => (g.graph.preorder mixin).filter fun i =>
      (g.types[i]?.any fun m => m.isMixin) && i ∉ inherited).eraseDups }

/-- The entries for all types, by position. -/
def table (g : IndexedHierarchy) : List Entry := g.types.map g.entry

/-- The entry at the position of a type, which is known by alias and item type. -/
def entry? (g : IndexedHierarchy) (t : ContentType) : Option Entry :=
  (g.place? t).bind (g.table[·]?)

/-- The base of a type. -/
def base? (g : IndexedHierarchy) (t : ContentType) : Option ContentType :=
  ((g.entry? t).bind Entry.base).bind (g.types[·]?)

/-- The types that the entry of a type has in the selected list. -/
def related (g : IndexedHierarchy) (select : Entry → List Nat) (t : ContentType) :
    List ContentType :=
  g.read ((g.entry? t).elim [] select)

end IndexedHierarchy

end ContentModels
