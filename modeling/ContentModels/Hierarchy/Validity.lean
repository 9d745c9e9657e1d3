import ContentModels.Fault
import ContentModels.Mode
import ContentModels.Hierarchy.Basic

/-!
# Valid hierarchies

`Hierarchy.ofTypes` takes a list of content types as a hierarchy if no check finds a fault. The
checks are made in a fixed order, and of several faults the first one found is told: identities,
property names, links, cycles, elements; within each of these, in the order of declaration.

A property named like its type is a fault where the models are source files. Where they are
compiled in memory, the property is noted as one that cannot be implemented.
-/

namespace ContentModels

/-- The first element that is among those before it or among `seen`. -/
def firstRepeat? {α : Type} [DecidableEq α] (seen : List α) : List α → Option α
  | [] => none
  | x :: rest => if x ∈ seen then some x else firstRepeat? (x :: seen) rest

namespace Hierarchy

/-- The first type that shares alias and item type, or else its identity, with an earlier one. -/
def identityFault? (earlier : List ContentType) : List ContentType → Option Fault
  | [] => none
  | t :: rest =>
    if earlier.any fun u => u.aliasName = t.aliasName && u.itemType = t.itemType then
      some (.duplicateAlias t.aliasName t.itemType)
    else if earlier.any fun u => u.id = t.id then
      some (.duplicateId t.id)
    else identityFault? (t :: earlier) rest

/-- A member name that two properties of the type share or, where models are source files, one that
is the name of the class. -/
def propertyFault? (mode : Mode) (t : ContentType) : Option Fault :=
  let names := t.activeProperties.map Property.memberName
  match firstRepeat? [] names with
  | some name => some (.duplicateProperty t.aliasName name)
  | none =>
    if mode = .sourceCode ∧ t.className ∈ names then
      some (.propertyNamedLikeType t.aliasName t.className)
    else none

/-- The reason why a property named like its type cannot be implemented. -/
def clashNote (className : String) : String :=
  "The property name \"" ++ className ++ "\" is the same as the name of its declaring " ++
    "content type. A member cannot have the same name as its enclosing type."

/-- The type with a note on each of its properties that is named like it, where models are compiled
in memory. -/
def noteClashes (mode : Mode) (t : ContentType) : ContentType :=
  match mode with
  | .sourceCode => t
  | .inMemory =>
    { t with
      properties := t.properties.map fun p =>
        if !p.ignored && p.memberName = t.className then p.addError (clashNote t.className)
        else p }

/-- What is wrong with the base of a type. -/
def baseFault? (h : Hierarchy) (t : ContentType) : Option Fault :=
  match t.baseAlias with
  | some base =>
    match h.meant t.itemType base with
    | [] => some (.unknownBase t.aliasName base)
    | [_] => none
    | _ => some (.ambiguousAlias t.aliasName base)
  | none =>
    if t.parentId ≠ 0 ∧ h.withId? t.parentId = none then
      some (.unknownParent t.aliasName t.parentId)
    else none

/-- What is wrong with a mixin of a type, known by its alias. -/
def mixinFault? (h : Hierarchy) (t : ContentType) (mixin : String) : Option Fault :=
  match h.meant t.itemType mixin with
  | [] => some (.unknownMixin t.aliasName mixin)
  | [m] => if m.isMixin then none else some (.notAMixin t.aliasName mixin)
  | _ => some (.ambiguousAlias t.aliasName mixin)

/-- What is wrong with the links of a type. -/
def linkFault? (h : Hierarchy) (t : ContentType) : Option Fault :=
  h.baseFault? t <|> t.mixinAliases.findSome? (h.mixinFault? t)

/-- A type that is a supertype of itself. -/
def cycleFault? (h : Hierarchy) : Option Fault :=
  h.graph.cycleNode?.map fun t => .cycle t.aliasName

/-- A supertype of an element that is no element. -/
def elementFault? (h : Hierarchy) (t : ContentType) : Option Fault :=
  if t.isElement then
    ((h.baseOf? t).filter (!·.isElement)).map (fun b => .elementParent t.aliasName b.aliasName) <|>
      ((h.mixinsOf t).find? (!·.isElement)).map (fun m => .elementMixin t.aliasName m.aliasName)
  else none

/-- The first fault of content types that are to be a hierarchy. -/
def fault? (mode : Mode) (types : List ContentType) : Option Fault :=
  -- Notes change no alias, identity or link, so they may be there before the links are checked.
  let h : Hierarchy := ⟨types.map (noteClashes mode)⟩
  identityFault? [] types <|> types.findSome? (propertyFault? mode) <|>
    h.types.findSome? h.linkFault? <|> h.cycleFault? <|> h.types.findSome? h.elementFault?

/-- The hierarchy of the given types, if it is a valid one. -/
def ofTypes (mode : Mode) (types : List ContentType) : Except Fault Hierarchy :=
  match fault? mode types with
  | some fault => .error fault
  | none => .ok ⟨types.map (noteClashes mode)⟩

end Hierarchy

end ContentModels
