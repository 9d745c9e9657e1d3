import ContentModels.Identifier
import ContentModels.Diagnostic
import ContentModels.TypeRef.Basic

/-!
# Reading type references

The grammar of type references is

* type: base followed by any number of ranks `[]`;
* base: a placeholder `{alias}` or `{alias:ItemType}`, or a named type;
* named type: `global::` if wanted, identifiers joined by `.`, nested names each behind a `+`, and
  a list of arguments `<type, type>` if wanted.

Blanks may stand around generic arguments and inside a rank, and nowhere else. The last of the
dotted identifiers is the outer type and those before it are its namespace. A single identifier
that is a keyword stands for its type of the namespace `System`, unless `global::` roots it.

One character of look-ahead decides how to go on, behind an optional `global::`, so no part of the
text is read twice. What goes wrong is told as a `Misreading`: the mistake, the place where the
construct at fault begins, and the place where the reader stood.
-/

namespace ContentModels

/-- The mistakes that a type name can hold. -/
inductive Mistake where
  /-- No type name where one has to start. -/
  | noTypeName
  /-- A list of generic arguments that neither goes on nor ends. -/
  | openArguments
  /-- A placeholder without an alias. -/
  | noAlias
  /-- A placeholder with something other than an item type behind its colon. -/
  | badItemType
  /-- A placeholder that does not end. -/
  | openPlaceholder
  /-- No identifier behind a separator. -/
  | noIdentifier
  /-- A rank that does not end. -/
  | openRank
deriving DecidableEq

namespace Mistake

/-- The code of a mistake. -/
def code : Mistake → Code
  | noTypeName => .expectedTypeName
  | openArguments => .unterminatedArguments
  | noAlias => .missingAlias
  | badItemType => .unknownItemType
  | openPlaceholder => .unterminatedPlaceholder
  | noIdentifier => .expectedIdentifier
  | openRank => .unterminatedRank

/-- What is wrong. -/
def message : Mistake → String
  | noTypeName => "expected a type name"
  | openArguments => "unterminated generic argument list"
  | noAlias => "missing model alias"
  | badItemType => "unknown item type"
  | openPlaceholder => "unterminated placeholder"
  | noIdentifier => "expected an identifier"
  | openRank => "unterminated array rank"

/-- What to do about it. -/
def help : Mistake → String
  | noTypeName => "write a name such as `System.String`, `int` or `\x7balias\x7d`"
  | openArguments => "separate arguments with `,` and close the list with `>`"
  | noAlias => "write the alias of a content type, e.g. `\x7bhomePage\x7d`"
  | badItemType => "use one of `Content`, `Element`, `Media` or `Member`"
  | openPlaceholder => "close the placeholder with `\x7d`"
  | noIdentifier => "remove the trailing separator or add a name after it"
  | openRank => "only single-dimension arrays `[]` are supported"

end Mistake

/-- A failed reading: the mistake, what remained of the text where the construct at fault begins,
and what remained where the reader stood. -/
structure Misreading where
  mistake : Mistake
  opened : List Char
  stopped : List Char
deriving DecidableEq

/-- The offset at which the remainder `rest` of `source` begins. -/
def offset (source rest : List Char) : Nat := byteLength source - byteLength rest

/-- The report of a misreading: its label goes from where the construct at fault begins to where
the reader stood, and covers one byte at least. -/
def Misreading.report (m : Misreading) (source : List Char) : Report :=
  let start := offset source m.opened
  let stop := max (offset source m.stopped) (start + 1)
  ⟨[{ severity := .error
      code := some m.mistake.code
      message := m.mistake.message
      labels := [.primary (.between start stop) m.mistake.code.description]
      help := some m.mistake.help }]⟩

/-- The report of a text that goes on behind a complete type. -/
def Report.trailing (source rest : List Char) : Report :=
  let start := offset source rest
  ⟨[{ severity := .error
      code := some .trailingInput
      message := "unexpected input after the type name"
      labels :=
        [.primary (.between start (byteLength source)) Code.trailingInput.description,
          .secondary (.between 0 start) "parsed as a complete type"]
      help := none }]⟩

namespace TypeRef

/-! ## Named types -/

/-- The mark that roots a name in the global namespace. -/
def rootMark : List Char := "global::".toList

/-- Whether the text starts with the root mark. -/
def isRooted (s : List Char) : Bool := rootMark.isPrefixOf s

/-- The text without a root mark at its front. -/
def unrooted (s : List Char) : Remainder s :=
  if isRooted s then .drop rootMark.length s else .all s

/-- Whether a type can start at the front of the text. -/
def startsType (s : List Char) : Bool :=
  (next? '{' s).isSome || startsName (unrooted s).val

/-- Reads names, each behind the separator, as many as there are. A separator without a name is a
mistake of the construct that begins at `opened`. -/
def readNames (separator : Char) (opened s : List Char) :
    Except Misreading (List String × Remainder s) :=
  match next? separator s with
  | none => .ok ([], .all s)
  | some r =>
    match readName? r.val with
    | none => .error ⟨.noIdentifier, opened, r.val⟩
    | some (name, r') =>
      let read := r.trans r'.toRemainder
      match readNames separator opened read.val with
      | .error e => .error e
      | .ok (names, rest) => .ok (name :: names, read.toRemainder.trans rest)
termination_by s.length
decreasing_by exact read.property

/-- The names of a named type as they stand in the text. -/
structure Head where
  /-- Whether the root mark stands in front. -/
  rooted : Bool
  /-- The first name. -/
  first : String
  /-- The names behind dots. -/
  dotted : List String
  /-- The nested names, behind plus signs. -/
  nested : List String

/-- Reads the names of a named type. -/
def readHead (s : List Char) : Except Misreading (Head × Shorter s) :=
  let name := unrooted s
  match readName? name.val with
  | none => .error ⟨.noTypeName, s, name.val⟩
  | some (first, r) =>
    match readNames '.' s r.val with
    | .error e => .error e
    | .ok (dotted, r') =>
      match readNames '+' s r'.val with
      | .error e => .error e
      | .ok (nested, rest) =>
        .ok (⟨isRooted s, first, dotted, nested⟩, name.further (r.trans (r'.trans rest)))

/-- The type that the names and the arguments designate: a lone keyword is its type of the
namespace `System`; otherwise the last of the dotted names is declared in the namespace that those
before it make up. -/
def Head.type (h : Head) (args : List TypeRef) : TypeRef :=
  let segments := h.first :: h.dotted
  -- Keywords are looked for among bare names only, so a rooted `global::int` is a type named `int`.
  let spelled := named (.ofSegments segments.dropLast) (segments.getLastD h.first) h.nested args
  if !h.rooted && h.dotted.isEmpty && h.nested.isEmpty && args.isEmpty then
    (ofKeyword? h.first).getD spelled
  else spelled

/-! ## Placeholders and ranks -/

/-- Reads the end of a placeholder that begins at `opened`. -/
def readBrace (opened : List Char) (target : Placeholder) (s : List Char) :
    Except Misreading (TypeRef × Shorter s) :=
  match next? '}' s with
  | none => .error ⟨.openPlaceholder, opened, s⟩
  | some r => .ok (.model target, r)

/-- Reads a placeholder that begins at `opened`, from behind its opening brace. -/
def readPlaceholder (opened s : List Char) : Except Misreading (TypeRef × Shorter s) :=
  let name := s.takeWhile isNamePart
  let r := Remainder.dropWhile isNamePart s
  if name.isEmpty then .error ⟨.noAlias, opened, s⟩
  else
    match next? ':' r.val with
    | none =>
      match readBrace opened ⟨String.ofList name, none⟩ r.val with
      | .error e => .error e
      | .ok (t, rest) => .ok (t, r.further rest)
    | some r' =>
      match readName? r'.val with
      | none => .error ⟨.badItemType, opened, r'.val⟩
      | some (word, r'') =>
        match ItemType.ofName? word with
        -- A word that is no item type is told where it begins, not where it ends.
        | none => .error ⟨.badItemType, opened, r'.val⟩
        | some kind =>
          match readBrace opened ⟨String.ofList name, some kind⟩ r''.val with
          | .error e => .error e
          | .ok (t, rest) =>
            .ok (t, r.further (r'.trans (r''.trans rest.toRemainder).toRemainder))

/-- Reads the ranks behind the element type `t`, as many as there are. -/
def readRanks (t : TypeRef) (s : List Char) : Except Misreading (TypeRef × Remainder s) :=
  match next? '[' s with
  | none => .ok (t, .all s)
  | some r =>
    let inner := skipBlanks r.val
    match next? ']' inner.val with
    | none => .error ⟨.openRank, s, inner.val⟩
    | some r' =>
      let read := r.trans (inner.trans r'.toRemainder)
      match readRanks (.array t) read.val with
      | .error e => .error e
      | .ok (t', rest) => .ok (t', read.toRemainder.trans rest)
termination_by s.length
decreasing_by exact read.property

/-! ## Types -/

mutual

/-- Reads the longest type at the front of the text. -/
def readType (s : List Char) : Except Misreading (TypeRef × Shorter s) :=
  match next? '{' s with
  | some r =>
    match readPlaceholder s r.val with
    | .error e => .error e
    | .ok (t, r') =>
      match readRanks t r'.val with
      | .error e => .error e
      | .ok (t', rest) => .ok (t', r.trans (r'.trans rest).toRemainder)
  | none =>
    match readHead s with
    | .error e => .error e
    | .ok (head, r) =>
      match next? '<' r.val with
      | none =>
        match readRanks (head.type []) r.val with
        | .error e => .error e
        | .ok (t, rest) => .ok (t, r.trans rest)
      | some r' =>
        let inner := r.trans r'.toRemainder
        match readArguments r.val inner.val with
        | .error e => .error e
        | .ok (args, r'') =>
          match readRanks (head.type args) r''.val with
          | .error e => .error e
          | .ok (t, rest) => .ok (t, inner.trans (r''.trans rest).toRemainder)
termination_by 2 * s.length
decreasing_by exact inner.two_mul_length_lt

/-- Reads generic arguments up to the end of their list, which begins at `opened`: at least one
type, and another behind each comma. -/
def readArguments (opened s : List Char) : Except Misreading (List TypeRef × Shorter s) :=
  let start := skipBlanks s
  match readType start.val with
  | .error e => .error e
  | .ok (t, r) =>
    let stop := r.trans (skipBlanks r.val)
    match next? '>' stop.val with
    | some rest => .ok ([t], start.further (stop.trans rest.toRemainder))
    | none =>
      match next? ',' stop.val with
      | none => .error ⟨.openArguments, opened, stop.val⟩
      | some r' =>
        -- Where no type can follow the comma, the reader has not gone past it.
        if startsType (skipBlanks r'.val).val then
          let read := start.further (stop.trans r'.toRemainder)
          match readArguments opened read.val with
          | .error e => .error e
          | .ok (ts, rest) => .ok (t :: ts, read.trans rest.toRemainder)
        else .error ⟨.openArguments, opened, stop.val⟩
termination_by 2 * s.length + 1
decreasing_by
  · exact start.two_mul_length_lt
  · exact Nat.lt_succ_of_lt read.two_mul_length_lt

end

/-! ## Whole texts -/

/-- Reads a text that is a type and nothing else. -/
def parse (source : String) : Except Report TypeRef :=
  let s := source.toList
  match readType s with
  | .error m => .error (m.report s)
  | .ok (t, ⟨[], _⟩) => .ok t
  | .ok (_, ⟨rest, _⟩) => .error (Report.trailing s rest)

end TypeRef

end ContentModels
