import ContentModels.ItemType
import ContentModels.TypeRef.Basic

/-!
# Content types

A content type is described by its identity, its place among the other types and its properties, in
the order of their declaration. The alias is the stable name that the outside knows; the class name
and the member names are those of the generated code.
-/

namespace ContentModels

/-- A property of a content type. -/
structure Property where
  /-- The stable name that the outside knows. -/
  aliasName : String
  /-- The name of the generated member. -/
  memberName : String
  /-- The declared value type. -/
  type : TypeRef
  /-- The name shown to readers. -/
  name : Option String := none
  /-- The description shown to readers. -/
  description : Option String := none
  /-- Whether no member is generated for the property. -/
  ignored : Bool := false
  /-- The reasons why the property cannot be implemented. -/
  errors : List String := []
deriving DecidableEq

/-- The property with one more reason why it cannot be implemented. -/
def Property.addError (p : Property) (reason : String) : Property :=
  { p with errors := p.errors ++ [reason] }

/-- What a content type is there for. -/
inductive Usage where
  /-- A type of its own. -/
  | ordinary
  /-- A type of its own that other types may be composed of. -/
  | mixin
  /-- A type that is only there for other types to be composed of. -/
  | compositionOnly
deriving DecidableEq

/-- A content type. -/
structure ContentType where
  /-- The identity of the type; the parent identity 0 means no parent. -/
  id : Int
  /-- The stable name that the outside knows. -/
  aliasName : String
  /-- The name of the generated class. -/
  className : String
  /-- The category of the type. -/
  itemType : ItemType
  /-- The identity of the parent, or 0. -/
  parentId : Int := 0
  /-- The alias of the supertype, which goes before the parent identity. -/
  baseAlias : Option String := none
  /-- What the type is there for. -/
  usage : Usage := .ordinary
  /-- Whether no model is generated for the type. -/
  ignored : Bool := false
  /-- The aliases of the mixins that the type is composed of. -/
  mixinAliases : List String := []
  /-- The name shown to readers. -/
  name : Option String := none
  /-- The properties. -/
  properties : List Property := []
deriving DecidableEq

namespace ContentType

/-- Whether the type is an element. -/
def isElement (t : ContentType) : Bool := t.itemType = .element

/-- Whether other types may be composed of the type. -/
def isMixin (t : ContentType) : Bool := t.usage ≠ .ordinary

/-- Whether the type is only there for other types to be composed of. -/
def isCompositionOnly (t : ContentType) : Bool := t.usage = .compositionOnly

/-- The type as one that other types may be composed of. -/
def asMixin (t : ContentType) : ContentType :=
  if t.usage = .ordinary then { t with usage := .mixin } else t

/-- The type as one that is only there for other types to be composed of. -/
def asCompositionOnly (t : ContentType) : ContentType := { t with usage := .compositionOnly }

/-- The type with one more mixin. -/
def addMixin (t : ContentType) (mixin : String) : ContentType :=
  { t with mixinAliases := t.mixinAliases ++ [mixin] }

/-- The type with one more property. -/
def addProperty (t : ContentType) (p : Property) : ContentType :=
  { t with properties := t.properties ++ [p] }

/-- The properties that a member is generated for. -/
def activeProperties (t : ContentType) : List Property := t.properties.filter fun p => !p.ignored

/-- The name of the interface that is generated for the type if it is a mixin. -/
def interfaceName (t : ContentType) : String := "I" ++ t.className

/-- The type with one more reason why its property at the index cannot be implemented. -/
def addPropertyError (t : ContentType) (index : Nat) (reason : String) : ContentType :=
  { t with properties := t.properties.modify index (·.addError reason) }

end ContentType

/-- Whether a placeholder may stand for the model of `t`: the aliases agree, and so do the item
types if the placeholder gives one. -/
def Placeholder.fits (p : Placeholder) (t : ContentType) : Bool :=
  p.aliasName = t.aliasName && (p.itemType = none || p.itemType = some t.itemType)

end ContentModels
