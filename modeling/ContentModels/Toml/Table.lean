/-!
# TOML tables

The values of TOML, and tables as they grow while a document is read.

Whether a table can grow hangs on how it came to be. A header defines a table once; the tables on
the way to it come to be by implication, and a header may still define each of them. A dotted key
makes tables that other dotted keys may add to, but no header may define. A table in braces is
complete. Where a path leads to an array of tables, it goes on in the last of them.
-/

namespace ContentModels.Toml

/-- How a table came to be. -/
inductive Making where
  /-- A header defines it. -/
  | header
  /-- It is on the way to a table that a header defines. -/
  | implied
  /-- A dotted key makes it. -/
  | dotted
  /-- It is written in braces. -/
  | braces
deriving DecidableEq

/-- A decimal number, `significand * 10 ^ exponent`, whatever its sign. -/
structure Decimal where
  significand : Nat
  exponent : Int

/-- A value. -/
inductive Value where
  | string (text : String)
  /-- A word formed like an integer; none stands for the value of one that is no number. -/
  | integer (value : Option Int)
  /-- A number with a point or an exponent; none stands for infinity and for what is no number. -/
  | float (size : Option Decimal)
  | boolean (value : Bool)
  | dateTime
  | array (elements : List Value)
  | table (making : Making) (entries : List (String × Value))
  /-- An array of tables that headers define one after the other. -/
  | tables (elements : List Value)

/-- A table, its entries in the order in which they came. -/
structure Table where
  making : Making
  entries : List (String × Value)

namespace Table

/-- A table without entries. -/
def empty (making : Making) : Table := ⟨making, []⟩

/-- The table as a value. -/
def value (t : Table) : Value := .table t.making t.entries

/-- The value of a key. -/
def find? (t : Table) (key : String) : Option Value :=
  (t.entries.find? fun entry => entry.1 = key).map Prod.snd

/-- The table with another value for a key, or with a new entry for it. -/
def put (t : Table) (key : String) (value : Value) : Table :=
  if t.entries.any fun entry => entry.1 = key then
    { t with entries := t.entries.map fun entry => if entry.1 = key then (key, value) else entry }
  else { t with entries := t.entries ++ [(key, value)] }

/-- Changes the table that a path leads to, and makes the tables on the way that are not there.
Dotted keys do not enter a table that a header has defined. -/
def within (viaDotted : Bool) (change : Table → Option Table) : List String → Table → Option Table
  | [], t => change t
  | key :: path, t =>
    match t.find? key with
    | none =>
      let making := if viaDotted then Making.dotted else .implied
      (within viaDotted change path (empty making)).map fun u => t.put key u.value
    | some (.table making entries) =>
      if making = .braces ∨ (viaDotted ∧ making = .header) then none
      else (within viaDotted change path ⟨making, entries⟩).map fun u => t.put key u.value
    | some (.tables elements) =>
      match elements.getLast? with
      | some (.table making entries) =>
        (within viaDotted change path ⟨making, entries⟩).map fun u =>
          t.put key (.tables (elements.dropLast ++ [u.value]))
      | _ => none
    | some _ => none

/-- Gives a value to a new key. Behind a path, the key has to be in a table that dotted keys
make. -/
def assign (path : List String) (key : String) (value : Value) (t : Table) : Option Table :=
  t.within true
    (fun u =>
      if path ≠ [] ∧ u.making ≠ .dotted then none
      else match u.find? key with
        | some _ => none
        | none => some (u.put key value))
    path

/-- Defines the table of a header. -/
def define (path : List String) (key : String) (t : Table) : Option Table :=
  t.within false
    (fun u =>
      match u.find? key with
      | none => some (u.put key (empty .header).value)
      | some (.table .implied entries) => some (u.put key (.table .header entries))
      | some _ => none)
    path

/-- Adds a table to an array of tables. -/
def extend (path : List String) (key : String) (t : Table) : Option Table :=
  t.within false
    (fun u =>
      match u.find? key with
      | none => some (u.put key (.tables [(empty .header).value]))
      | some (.tables elements) =>
        some (u.put key (.tables (elements ++ [(empty .header).value])))
      | some _ => none)
    path

end Table

end ContentModels.Toml
