import ContentModels.Remainder

/-!
# Identifiers

An identifier is an ASCII letter or underscore followed by ASCII letters, digits and underscores.
-/

namespace ContentModels

/-- Whether an identifier can start with the character. -/
def isNameStart (c : Char) : Bool := c.isAlpha || c = '_'

/-- Whether an identifier can go on with the character. -/
def isNamePart (c : Char) : Bool := c.isAlphanum || c = '_'

/-- Whether the text starts with an identifier. -/
def startsName : List Char → Bool
  | [] => false
  | c :: _ => isNameStart c

/-- Reads the longest identifier at the front of the text. -/
def readName? : (s : List Char) → Option (String × Shorter s)
  | [] => none
  | c :: r =>
    if isNameStart c then
      some (String.ofList (c :: r.takeWhile isNamePart), (Remainder.dropWhile isNamePart r).cons c)
    else none

/-- Whether a text is an identifier. -/
def isIdentifier : List Char → Bool
  | [] => false
  | c :: r => isNameStart c && r.all isNamePart

/-- Whether the character may stand between the parts of a type name: space, tab and the two
characters that end lines. -/
def isBlank (c : Char) : Bool := c = ' ' || c = '\t' || c = '\r' || c = '\n'

/-- The text without the blanks at its front. -/
def skipBlanks (s : List Char) : Remainder s := .dropWhile isBlank s

end ContentModels
