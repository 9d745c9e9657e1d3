import ContentModels.Framework
import ContentModels.Hierarchy.Interfaces

/-!
# Outlines

What a generated class and a generated interface hold, before any of it is written: the supertypes
that their headers name, the members that their bodies write, and the arguments that a constructor
takes and passes on.
-/

namespace ContentModels

/-- What the header of a class or an interface names behind its colon. -/
inductive Supertype where
  /-- A type of the framework. -/
  | framework (d : DeclaredType)
  /-- The class generated for a content type. -/
  | modelClass (t : ContentType)
  /-- The interface generated for a mixin. -/
  | modelInterface (t : ContentType)

/-- How a member comes by its value. -/
inductive Delivery where
  /-- It asks the published item itself. -/
  | value
  /-- It asks the static getter that stands beside it, in the class of the mixin `owner`. -/
  | ownGetter (owner : ContentType)
  /-- It asks the static getter in the class of the mixin `owner`. -/
  | getterOf (owner : ContentType)

/-- A property that a class implements. -/
structure Member where
  property : Property
  delivery : Delivery

/-- Whether the member is written inside a comment: it cannot be implemented, and no other class has
it in its place. -/
def Member.isDisabled (m : Member) : Bool :=
  match m.delivery with
  | .getterOf _ => false
  | _ => !m.property.errors.isEmpty

/-- What a constructor takes, and passes on. -/
inductive Argument where
  /-- The published item. -/
  | content
  /-- What gives a value to a property that has none. -/
  | fallback
deriving DecidableEq

/-- The name of an argument. -/
def Argument.name : Argument → String
  | content => "content"
  | fallback => "publishedValueFallback"

namespace ContentType

/-- The kind of published item that the model of a type wraps. -/
def publishedInterface (t : ContentType) : DeclaredType :=
  if t.isElement then Framework.publishedElement else Framework.publishedContent

/-- The base class of the model of a type without a base. -/
def publishedBaseClass (t : ContentType) : DeclaredType :=
  if t.isElement then Framework.publishedElementModel else Framework.publishedContentModel

/-- The category that the model of a type gives: elements are published as content. -/
def publishedItemType (t : ContentType) : ItemType :=
  if t.isElement then .content else t.itemType

/-- The type of an argument of the constructor of a type's model. -/
def argumentType (t : ContentType) : Argument → DeclaredType
  | .content => t.publishedInterface
  | .fallback => Framework.valueFallback

/-- The arguments that the constructor of a type's model takes. -/
def constructorParameters (_ : ContentType) : List Argument := [.content, .fallback]

/-- The arguments that the constructor of a type's model passes on to that of its base. -/
def baseArguments (t : ContentType) : List Argument :=
  if t.isElement then [.content, .fallback] else [.content]

/-- The properties that a member is generated for, sorted by member name. -/
def sortedProperties (t : ContentType) : List Property :=
  sortBy Property.memberName t.activeProperties

/-- The members for the properties of a type in its own class. -/
def ownMembers (t : ContentType) : List Member :=
  t.sortedProperties.map fun p => ⟨p, if t.isMixin then .ownGetter t else .value⟩

end ContentType

namespace Hierarchy

/-- What the header of a class names: the class of the base, or that of the framework; then the
type's own interface if it is a mixin, and otherwise the interfaces that it declares. -/
def classSupertypes (h : Hierarchy) (t : ContentType) : List Supertype :=
  (match h.baseOf? t with
    -- The class of the base is named whether or not a model is generated for it.
    | some base => .modelClass base
    | none => .framework t.publishedBaseClass) ::
  if t.isMixin then [.modelInterface t] else (h.lifted t).map .modelInterface

/-- What the header of a mixin's interface names: the interface of the base if it has one, or that
of the framework; then the interfaces that the mixin declares. -/
def interfaceSupertypes (h : Hierarchy) (t : ContentType) : List Supertype :=
  (match (h.baseOf? t).filter fun base => base.isMixin && h.isGenerated base with
    | some base => .modelInterface base
    | none => .framework t.publishedInterface) ::
  (h.lifted t).map .modelInterface

/-- The members for the properties of the mixins that a type implements, the mixins sorted by class
name. Those of a generated mixin ask the getter in its class. -/
def implementedMembers (h : Hierarchy) (t : ContentType) : List Member :=
  (sortBy ContentType.className (h.implementedBy t)).flatMap fun mixin =>
    mixin.sortedProperties.map fun p =>
      ⟨p, if h.isGenerated mixin then .getterOf mixin else .value⟩

/-- The members of the class of a type. -/
def members (h : Hierarchy) (t : ContentType) : List Member :=
  t.ownMembers ++ h.implementedMembers t

end Hierarchy

end ContentModels
