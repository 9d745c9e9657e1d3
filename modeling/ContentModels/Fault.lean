import ContentModels.Diagnostic
import ContentModels.ItemType
import ContentModels.Namespace.Basic

/-!
# Faults

Everything that can be wrong with a configuration, with a collection of content types, or with a
reference met while writing. Each cause is a constructor, and `Fault.message` is its wording.
-/

namespace ContentModels

/-- A cause for which nothing can be prepared or written. -/
inductive Fault where
  /-- The name of the generator is blank. -/
  | blankGeneratorName
  /-- The version of the generator is blank. -/
  | blankGeneratorVersion
  /-- A namespace to import is imported already. -/
  | alreadyImported (ns : Namespace)
  /-- A list of imports names a namespace twice. -/
  | importedTwice (ns : Namespace)
  /-- A configuration file is not in its format, or holds values of the wrong kind. -/
  | unreadableConfig
  /-- A type name or a namespace is malformed. -/
  | malformedName (report : Report)
  /-- Two types share alias and item type. -/
  | duplicateAlias (aliasName : String) (itemType : ItemType)
  /-- Two types share their identity. -/
  | duplicateId (id : Int)
  /-- Two properties of a type share their member name. -/
  | duplicateProperty (typeAlias property : String)
  /-- A property is named like its type. -/
  | propertyNamedLikeType (typeAlias property : String)
  /-- The base alias of a type is that of no type. -/
  | unknownBase (typeAlias base : String)
  /-- The parent identity of a type is that of no type. -/
  | unknownParent (typeAlias : String) (parentId : Int)
  /-- A mixin alias of a type is that of no type. -/
  | unknownMixin (typeAlias mixin : String)
  /-- A mixin alias of a type is that of a type which is no mixin. -/
  | notAMixin (typeAlias mixin : String)
  /-- An alias that a type refers to is that of several types. -/
  | ambiguousAlias (typeAlias aliasName : String)
  /-- A type is a supertype of itself. -/
  | cycle (typeAlias : String)
  /-- An element inherits from a type that is none. -/
  | elementParent (typeAlias parent : String)
  /-- An element is composed of a type that is none. -/
  | elementMixin (typeAlias mixin : String)
  /-- No model is generated under the name. -/
  | unknownModel (name : String)
  /-- The name is that of several types. -/
  | ambiguousModel (name : String)
deriving DecidableEq

/-- A word between backquotes, as the messages write it. -/
def quoted (word : String) : String := "`" ++ word ++ "`"

/-- The wording of a fault. -/
def Fault.message : Fault → String
  | blankGeneratorName => "Invalid configuration: generator name is empty"
  | blankGeneratorVersion => "Invalid configuration: generator version is empty"
  | alreadyImported ns =>
    "Invalid configuration: namespace " ++ quoted ns.text ++ " is already imported"
  | importedTwice ns =>
    "Invalid configuration: namespace " ++ quoted ns.text ++ " is imported more than once"
  | unreadableConfig => "Invalid configuration file"
  | malformedName report => "Invalid type name: " ++ report.summary
  | duplicateAlias aliasName itemType =>
    "Alias " ++ quoted aliasName ++ " is used by more than one " ++ itemType.name ++ " type"
  | duplicateId id => "Id " ++ toString id ++ " is used by more than one type"
  | duplicateProperty typeAlias property =>
    "Type " ++ quoted typeAlias ++ " declares more than one property named " ++ quoted property
  | propertyNamedLikeType typeAlias property =>
    "Property " ++ quoted property ++ " of type " ++ quoted typeAlias ++
      " has the same name as its declaring type"
  | unknownBase typeAlias base =>
    "Type " ++ quoted typeAlias ++ " inherits from unknown type " ++ quoted base
  | unknownParent typeAlias parentId =>
    "Type " ++ quoted typeAlias ++ " has unknown parent id " ++ toString parentId
  | unknownMixin typeAlias mixin =>
    "Type " ++ quoted typeAlias ++ " is composed of unknown type " ++ quoted mixin
  | notAMixin typeAlias mixin =>
    "Type " ++ quoted typeAlias ++ " is composed of " ++ quoted mixin ++ ", which is not a mixin"
  | ambiguousAlias typeAlias aliasName =>
    "Alias " ++ quoted aliasName ++ " referenced by type " ++ quoted typeAlias ++
      " matches types of several item types"
  | cycle typeAlias =>
    "Type " ++ quoted typeAlias ++ " is part of an inheritance or composition cycle"
  | elementParent typeAlias parent =>
    "Element type " ++ quoted typeAlias ++ " cannot inherit from non-element type " ++
      quoted parent
  | elementMixin typeAlias mixin =>
    "Element type " ++ quoted typeAlias ++ " cannot be composed of non-element type " ++
      quoted mixin
  | unknownModel name => "Model type " ++ quoted name ++ " does not exist or is not generated"
  | ambiguousModel name =>
    "Model type " ++ quoted name ++
      " matches types of several item types, specify the item type"

end ContentModels
