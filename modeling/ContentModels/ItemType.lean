/-!
# Item types

The four categories of content types. Two types may share an alias when their item types differ.
-/

namespace ContentModels

/-- The category that a content type belongs to. -/
inductive ItemType where
  /-- A routable content item. -/
  | content
  /-- A part of an item, used inside block editors and nested content. -/
  | element
  /-- A media item. -/
  | media
  /-- The profile of a site user. -/
  | member
deriving DecidableEq

namespace ItemType

/-- All item types. -/
def all : List ItemType := [content, element, media, member]

/-- The name of an item type. -/
def name : ItemType → String
  | content => "Content"
  | element => "Element"
  | media => "Media"
  | member => "Member"

/-- Whether two texts differ at most in the case of ASCII letters. -/
def sameLetters (a b : String) : Bool :=
  a.toList.map Char.toLower == b.toList.map Char.toLower

/-- The item type of the given name, whatever the case of its letters. -/
def ofName? (text : String) : Option ItemType :=
  all.find? fun kind => sameLetters kind.name text

/-- Every item type is found again by its own name. -/
theorem ofName?_name (kind : ItemType) : ofName? kind.name = some kind := by
  cases kind <;> decide

end ItemType

end ContentModels
