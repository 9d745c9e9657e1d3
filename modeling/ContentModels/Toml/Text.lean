import ContentModels.Remainder

/-!
# TOML text

The characters, the ends of lines, the comments and the strings of TOML documents. Every function
takes the text that is left and gives back what it read with what then remains; none stands for text
that is not TOML.
-/

namespace ContentModels.Toml

/-! ## Characters and lines -/

/-- Whether a character may stand in a comment or in a string: tab and all that is no control
character. -/
def isPlain (c : Char) : Bool := c = '\t' || (' ' ≤ c && c ≠ '\x7f')

/-- Whether a character is space or tab. -/
def isSpace (c : Char) : Bool := c = ' ' || c = '\t'

/-- The text without the spaces and tabs at its front. -/
def skipSpaces (s : List Char) : Remainder s := .dropWhile isSpace s

/-- Reads the end of a line. -/
def readNewline? (s : List Char) : Option (Shorter s) :=
  match next? '\n' s with
  | some r => some r
  | none =>
    match next? '\r' s with
    | none => none
    | some r => (next? '\n' r.val).map fun r' => r.trans r'.toRemainder

/-- Whether a line ends at the front of the text, or the text itself. -/
def endsLine (s : List Char) : Bool := s.isEmpty || (readNewline? s).isSome

/-- Reads what may stand at the end of a line: spaces and a comment. The end of the line is left. -/
def skipComment? (s : List Char) : Option (Remainder s) :=
  let start := skipSpaces s
  match next? '#' start.val with
  | none => some start
  | some r =>
    let rest := r.trans (.dropWhile isPlain r.val)
    if endsLine rest.val then some (start.further rest).toRemainder else none

/-- Reads the rest of a line: spaces, a comment, and the end of the line or of the text. -/
def endLine? (s : List Char) : Option (Remainder s) :=
  match skipComment? s with
  | none => none
  | some r =>
    if r.val.isEmpty then some r
    else (readNewline? r.val).map fun r' => r.trans r'.toRemainder

/-- Reads spaces, comments and ends of lines, as many as there are. -/
def skipLines? (s : List Char) : Option (Remainder s) :=
  match skipComment? s with
  | none => none
  | some r =>
    match readNewline? r.val with
    | none => some r
    | some r' =>
      let line := r.further r'
      match skipLines? line.val with
      | none => none
      | some rest => some (line.trans rest).toRemainder
termination_by s.length
decreasing_by exact line.property

/-! ## Strings -/

/-- The value of a hexadecimal digit. -/
def hexDigit? (c : Char) : Option Nat :=
  if c.isDigit then some (c.toNat - '0'.toNat)
  else if 'a' ≤ c ∧ c ≤ 'f' then some (c.toNat - 'a'.toNat + 10)
  else if 'A' ≤ c ∧ c ≤ 'F' then some (c.toNat - 'A'.toNat + 10)
  else none

/-- The character whose code point is written in the given number of hexadecimal digits. -/
def readCodePoint? (digits : Nat) (s : List Char) : Option (Char × Remainder s) :=
  let written := s.take digits
  if written.length < digits then none
  else
    match written.mapM hexDigit? with
    | none => none
    | some values =>
      let code := values.foldl (fun code value => 16 * code + value) 0
      if code.isValidChar then
        some (Char.ofNat code, .drop digits s)
      else none

/-- The character that an escape of one character stands for. -/
def escaped? : Char → Option Char
  | 'b' => some '\x08'
  | 't' => some '\t'
  | 'n' => some '\n'
  | 'f' => some '\x0c'
  | 'r' => some '\r'
  | '"' => some '"'
  | '\\' => some '\\'
  | _ => none

/-- Reads an escape from behind its backslash. -/
def readEscape? : (s : List Char) → Option (Char × Shorter s)
  | [] => none
  | 'u' :: r => (readCodePoint? 4 r).map fun (c, rest) => (c, rest.cons 'u')
  | 'U' :: r => (readCodePoint? 8 r).map fun (c, rest) => (c, rest.cons 'U')
  | c :: r => (escaped? c).map fun d => (d, .tail c r)

/-- Reads a string in double quotes from behind the first of them. -/
def readBasic? (s : List Char) : Option (List Char × Shorter s) :=
  match s with
  | [] => none
  | c :: r =>
    if c = '"' then some ([], .tail c r)
    else if c = '\\' then
      match readEscape? r with
      | none => none
      | some (d, r') =>
        let read := r'.cons c
        (readBasic? read.val).map fun (cs, rest) => (d :: cs, read.trans rest.toRemainder)
    else if isPlain c then
      (readBasic? r).map fun (cs, rest) => (c :: cs, rest.cons c)
    else none
termination_by s.length
decreasing_by
  · exact read.property
  · exact Nat.lt_succ_self r.length

/-- Reads a string in single quotes from behind the first of them. -/
def readLiteral? : (s : List Char) → Option (List Char × Shorter s)
  | [] => none
  | c :: r =>
    if c = '\'' then some ([], .tail c r)
    else if isPlain c then
      (readLiteral? r).map fun (cs, rest) => (c :: cs, rest.cons c)
    else none

/-- The text behind the end of a line at its front, if there is one. -/
def skipNewline (s : List Char) : Remainder s :=
  match readNewline? s with
  | some r => r.toRemainder
  | none => .all s

/-- Reads spaces, tabs and ends of lines, as many as there are. -/
def skipGaps (s : List Char) : Remainder s :=
  let start := skipSpaces s
  match readNewline? start.val with
  | none => start
  | some r =>
    let line := start.further r
    (line.trans (skipGaps line.val)).toRemainder
termination_by s.length
decreasing_by exact line.property

/-- What stands behind three quotes at the front of the text. -/
def readQuotes? (quote : Char) (s : List Char) : Option (Shorter s) :=
  match next? quote s with
  | none => none
  | some r =>
    match next? quote r.val with
    | none => none
    | some r' =>
      (next? quote r'.val).map fun r'' => r.trans (r'.trans r''.toRemainder).toRemainder

/-- Reads a string of several lines from behind the quotes that open it. Three quotes close it, and
up to two more in front of them belong to it. In double quotes, a backslash starts an escape, and
one at the end of a line takes all white space behind it away. -/
def readLong? (quote : Char) (s : List Char) : Option (List Char × Shorter s) :=
  match s with
  | [] => none
  | c :: r =>
    match readQuotes? quote (c :: r) with
    | some r' =>
      -- The last three of up to five quotes close the string.
      let more := (r'.val.take 2).takeWhile (· = quote)
      some (more, r'.trans (.drop more.length r'.val))
    | none =>
      if c = '\\' ∧ quote = '"' then
        if (readNewline? (skipSpaces r).val).isSome then
          let read := (skipGaps r).cons c
          (readLong? quote read.val).map fun (cs, rest) => (cs, read.trans rest.toRemainder)
        else
          match readEscape? r with
          | none => none
          | some (d, r') =>
            let read := r'.cons c
            (readLong? quote read.val).map fun (cs, rest) =>
              (d :: cs, read.trans rest.toRemainder)
      else if isPlain c || (readNewline? (c :: r)).isSome then
        (readLong? quote r).map fun (cs, rest) => (c :: cs, rest.cons c)
      else none
termination_by s.length
decreasing_by
  · exact read.property
  · exact read.property
  · exact Nat.lt_succ_self r.length

/-- Reads a string of one line from its first quote on. -/
def readShort? : (s : List Char) → Option (String × Shorter s)
  | '"' :: r => (readBasic? r).map fun (cs, rest) => (String.ofList cs, rest.cons '"')
  | '\'' :: r => (readLiteral? r).map fun (cs, rest) => (String.ofList cs, rest.cons '\'')
  | _ => none

/-- Reads a string of several lines from its first quote on. -/
def readLines? (quote : Char) (s : List Char) : Option (String × Shorter s) :=
  match readQuotes? quote s with
  | none => none
  | some r =>
    let start := r.trans (skipNewline r.val)
    (readLong? quote start.val).map fun (cs, rest) =>
      (String.ofList cs, start.trans rest.toRemainder)

/-- Whether the text starts with three of the given quotes. -/
def startsLines (quote : Char) (s : List Char) : Bool := (readQuotes? quote s).isSome

/-- Reads a string of one or several lines from its first quote on. -/
def readString? (s : List Char) : Option (String × Shorter s) :=
  if startsLines '"' s then readLines? '"' s
  else if startsLines '\'' s then readLines? '\'' s
  else readShort? s

end ContentModels.Toml
