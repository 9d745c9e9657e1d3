import ContentModels.Toml.Scalar

/-!
# Reading TOML

A document is a list of statements, one to a line: headers of tables and of elements of arrays of
tables, and keys with their values. `Document.read` reads the statements, and `Toml.parse` builds
the table that they make up, or none if the text is no document or its statements contradict each
other.

Arrays and tables in braces may nest as deep as `depthLimit`, and no more keys than that may be
joined by dots.
-/

namespace ContentModels.Toml

/-! ## Keys -/

/-- Whether a character may be part of a key without quotes. -/
def isKeyPart (c : Char) : Bool := c.isAlphanum || c = '_' || c = '-'

/-- Reads one key, with or without quotes. -/
def readSimpleKey? (s : List Char) : Option (String × Shorter s) :=
  match s with
  | [] => none
  | c :: r =>
    if isKeyPart c then
      some (String.ofList (c :: r.takeWhile isKeyPart), (Remainder.dropWhile isKeyPart r).cons c)
    else readShort? (c :: r)

/-- Reads keys joined by dots, as many as there are: the path, and the last key. Spaces may stand
around each key. -/
def readDotted? (s : List Char) : Option ((List String × String) × Shorter s) :=
  let start := skipSpaces s
  match readSimpleKey? start.val with
  | none => none
  | some (key, r) =>
    let behind := start.further (r.trans (skipSpaces r.val))
    match next? '.' behind.val with
    | none => some (([], key), behind)
    | some r' =>
      let read := behind.trans r'.toRemainder
      (readDotted? read.val).map fun ((path, last), rest) =>
        ((key :: path, last), read.trans rest.toRemainder)
termination_by s.length
decreasing_by exact read.property

/-- How deep arrays and tables in braces may nest, and how many keys may be joined by dots. -/
def depthLimit : Nat := 80

/-- Reads keys joined by dots, no more of them than `depthLimit`. -/
def readKey? (s : List Char) : Option ((List String × String) × Shorter s) :=
  (readDotted? s).filter fun ((path, _), _) => path.length < depthLimit

/-- Reads the keys of a pair, with the equals sign and the spaces behind them. -/
def readTarget? (s : List Char) : Option ((List String × String) × Shorter s) :=
  match readKey? s with
  | none => none
  | some (name, r) =>
    (next? '=' r.val).map fun r' => (name, r.trans (r'.trans (skipSpaces r'.val)).toRemainder)

/-! ## Values -/

/-- Reads a word that is a value. -/
def readWord? (s : List Char) : Option (Value × Shorter s) :=
  match s with
  | [] => none
  | c :: r =>
    if isWordPart c then
      let word := splitWord r
      (Value.ofWord? (c :: word.1)).map fun v => (v, word.2.cons c)
    else none

mutual

/-- Reads a value in which arrays and tables nest no deeper than given. -/
def readValue? (depth : Nat) (s : List Char) : Option (Value × Shorter s) :=
  match next? '[' s, next? '\x7b' s, depth with
  | some _, _, 0 => none
  | some r, _, depth + 1 =>
    (readElements? depth r.val).map fun (vs, rest) => (.array vs, r.trans rest.toRemainder)
  | none, some _, 0 => none
  | none, some r, depth + 1 =>
    let start := r.trans (skipSpaces r.val)
    match next? '\x7d' start.val with
    | some rest => some (.table .braces [], start.trans rest.toRemainder)
    | none =>
      (readPairs? depth (Table.empty .braces) r.val).map fun (t, rest) =>
        (t.value, r.trans rest.toRemainder)
  | none, none, _ =>
    match readString? s with
    | some (text, rest) => some (.string text, rest)
    | none => readWord? s
termination_by 2 * s.length
decreasing_by all_goals exact r.two_mul_length_lt

/-- Reads the elements of an array up to the bracket that closes it. -/
def readElements? (depth : Nat) (s : List Char) : Option (List Value × Shorter s) :=
  match skipLines? s with
  | none => none
  | some start =>
    match next? ']' start.val with
    | some rest => some ([], start.further rest)
    | none =>
      match readValue? depth start.val with
      | none => none
      | some (v, r) =>
        match skipLines? r.val with
        | none => none
        | some r' =>
          let behind := start.further (r.trans r')
          match next? ']' behind.val with
          | some rest => some ([v], behind.trans rest.toRemainder)
          | none =>
            match next? ',' behind.val with
            | none => none
            | some r'' =>
              let read := behind.trans r''.toRemainder
              (readElements? depth read.val).map fun (vs, rest) =>
                (v :: vs, read.trans rest.toRemainder)
termination_by 2 * s.length + 1
decreasing_by
  · exact start.two_mul_length_lt
  · exact Nat.lt_succ_of_lt read.two_mul_length_lt

/-- Reads the pairs of a table in braces up to the brace that closes it, and adds them to `t`. -/
def readPairs? (depth : Nat) (t : Table) (s : List Char) : Option (Table × Shorter s) :=
  match readTarget? s with
  | none => none
  | some ((path, key), start) =>
    match readValue? depth start.val with
    | none => none
    | some (v, r) =>
      let behind := start.trans (r.trans (skipSpaces r.val)).toRemainder
      match t.assign path key v with
      | none => none
      | some t =>
        match next? '\x7d' behind.val with
        | some rest => some (t, behind.trans rest.toRemainder)
        | none =>
          match next? ',' behind.val with
          | none => none
          | some r' =>
            let read := behind.trans r'.toRemainder
            (readPairs? depth t read.val).map fun (t, rest) => (t, read.trans rest.toRemainder)
termination_by 2 * s.length + 1
decreasing_by
  · exact Nat.lt_of_succ_lt (Nat.lt_succ_of_lt start.two_mul_length_lt)
  · exact Nat.lt_succ_of_lt read.two_mul_length_lt

end

/-! ## Statements -/

/-- A statement of a document. -/
inductive Statement where
  /-- The key at the end of the path has a value. -/
  | assign (path : List String) (key : String) (value : Value)
  /-- What follows is in the table at the end of the path. -/
  | table (path : List String) (key : String)
  /-- What follows is in a new element of the array at the end of the path. -/
  | element (path : List String) (key : String)

/-- Reads the rest of a header from behind its opening brackets: the path and the key that it
names, and as many closing brackets. -/
def readHeader? (brackets : Nat) (s : List Char) :
    Option ((List String × String) × Shorter s) :=
  match readKey? s with
  | none => none
  | some (name, r) =>
    if r.val.take brackets = List.replicate brackets ']' then
      some (name, r.trans (.drop brackets r.val))
    else none

/-- Reads a key and its value. -/
def readPair? (s : List Char) : Option (Statement × Shorter s) :=
  match readTarget? s with
  | none => none
  | some ((path, key), start) =>
    (readValue? depthLimit start.val).map fun (v, rest) =>
      (.assign path key v, start.trans rest.toRemainder)

/-- Reads one statement, without the end of its line. -/
def readStatement? (s : List Char) : Option (Statement × Shorter s) :=
  match next? '[' s with
  | none => readPair? s
  | some r =>
    match next? '[' r.val with
    | none =>
      (readHeader? 1 r.val).map fun ((path, key), rest) =>
        (.table path key, r.trans rest.toRemainder)
    | some r' =>
      (readHeader? 2 r'.val).map fun ((path, key), rest) =>
        (.element path key, r.trans (r'.trans rest.toRemainder).toRemainder)

/-- Reads the statements of a document. -/
def readStatements? (s : List Char) : Option (List Statement) :=
  match skipLines? s with
  | none => none
  | some start =>
    if start.val.isEmpty then some []
    else
      match readStatement? start.val with
      | none => none
      | some (statement, r) =>
        match endLine? r.val with
        | none => none
        | some r' =>
          let read := start.further (r.trans r')
          (readStatements? read.val).map (statement :: ·)
termination_by s.length
decreasing_by exact read.property

/-! ## Documents -/

/-- A document as far as its statements have been followed: the table that they make up, and the
path of the table that the last header names. -/
structure Document where
  root : Table
  current : List String

namespace Document

/-- The document without statements. -/
def start : Document := ⟨.empty .header, []⟩

/-- Follows a statement. -/
def follow (d : Document) : Statement → Option Document
  | .assign path key value =>
    (d.root.within false (Table.assign path key value) d.current).map fun root => { d with root }
  | .table path key => (d.root.define path key).map fun root => ⟨root, path ++ [key]⟩
  | .element path key => (d.root.extend path key).map fun root => ⟨root, path ++ [key]⟩

end Document

/-- The mark that may stand at the start of a text to tell its encoding. -/
def byteOrderMark : Char := '\uFEFF'

/-- The table that a document makes up. -/
def parse (source : String) : Option Table := do
  let s := match source.toList with
    | c :: r => if c = byteOrderMark then r else c :: r
    | [] => []
  let statements ← readStatements? s
  let document ← statements.foldlM Document.follow Document.start
  return document.root

end ContentModels.Toml
