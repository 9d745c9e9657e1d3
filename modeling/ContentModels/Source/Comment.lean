import ContentModels.ContentType
import ContentModels.Remainder

/-!
# Comments

Texts of the outside that generated code holds in its comments: the names and descriptions in
documentation comments, and the reasons why a property is commented out.
-/

namespace ContentModels

namespace Comment

/-- What a documentation comment of one line holds in the place of a character: braces for angle
brackets, and a space for what ends a line. -/
def docChar (c : Char) : Char :=
  if c = '<' then '\x7b'
  else if c = '>' then '\x7d'
  else if c = '\r' || c = '\n' then ' '
  else c

/-- A text as a documentation comment of one line holds it. -/
def docText (text : String) : String := String.ofList (text.toList.map docChar)

/-- The summary of one line behind the given indentation; nothing if there is no text. -/
def summaryLine (indent lead : String) : Option String → String
  | none => ""
  | some text => indent ++ "/// <summary>" ++ lead ++ docText text ++ "</summary>\n"

/-- The summary of a property: its name and its description, if it has one of them. -/
def propertySummary (p : Property) : String :=
  match p.name, p.description with
  | none, none => ""
  | name, description =>
    "\t\t///<summary>\n\t\t/// " ++ docText (name.getD "") ++
      (match description with
        | some description => ": " ++ docText description
        | none => "") ++
      "\n\t\t///</summary>\n"

/-- The length from which on a line of a note is broken. -/
def noteWidth : Nat := 50

/-- The lines of a note: each goes on to the first space behind its width, which is left out. A note
that ends with such a space has no line behind it. -/
def noteLines (note : List Char) : List (List Char) :=
  if note.isEmpty then []
  else
    let behind := Remainder.drop noteWidth note
    let gap := behind.trans (.dropWhile (· ≠ ' ') behind.val)
    match next? ' ' gap.val with
    -- Without a space behind the width, what is left is the last line, however long.
    | none => [note]
    | some r =>
      let rest := gap.further r
      (note.take noteWidth ++ behind.val.takeWhile (· ≠ ' ')) :: noteLines rest.val
termination_by note.length
decreasing_by exact rest.property

/-- The lines of a note as texts. -/
def wrap (note : String) : List String := (noteLines note.toList).map String.ofList

/-- What a note takes up in a comment of several lines. -/
def noteBlock (note : String) : String :=
  String.join ((wrap note).map fun line => "\t\t * " ++ line ++ "\n")

/-- The start of the comment that holds a property which cannot be implemented. -/
def openBlock (reasons : List String) : String :=
  "\t\t/*\n\t\t * THIS PROPERTY CANNOT BE IMPLEMENTED, BECAUSE:\n\t\t *\n" ++
    "\t\t *\n".intercalate (reasons.map noteBlock) ++ "\t\t *\n\n"

/-- The end of that comment. -/
def closeBlock : String := "\n\t\t *\n\t\t */\n"

end Comment

end ContentModels
