import ContentModels.Config.Basic
import ContentModels.Toml.Document

/-!
# Configuration files

A configuration is kept in a TOML document. Keys that are missing have their defaults, and keys that
are not known are passed over. Values of the wrong kind are told before values that are not well
formed.

A generator may be written as a table or as an array of its name and its version, and a mode as its
name or as a table with that name as its only key and nothing in it.
-/

namespace ContentModels

namespace Toml

mutual

/-- Whether all numbers in a value are in the range of the numbers of 64 bits, if they are floats,
and of 128 bits, if they are integers. What is formed like an integer has to be one. -/
def Value.isInRange : Value → Bool
  | .integer value => value.any isWide
  | .float (some d) => d.isFinite
  | .array elements => allInRange elements
  | .tables elements => allInRange elements
  | .table _ entries => entriesInRange entries
  | _ => true

/-- Whether all numbers in several values are in range. -/
def allInRange : List Value → Bool
  | [] => true
  | v :: vs => v.isInRange && allInRange vs

/-- Whether all numbers in the entries of a table are in range. -/
def entriesInRange : List (String × Value) → Bool
  | [] => true
  | (_, v) :: rest => v.isInRange && entriesInRange rest

end

/-- The text of a string. -/
def Value.text? : Value → Option String
  | .string text => some text
  | _ => none

/-- The texts of an array of strings. -/
def Value.texts? : Value → Option (List String)
  | .array elements => elements.mapM Value.text?
  | .tables elements => elements.mapM Value.text?
  | _ => none

/-- Whether a value is an array or a table that holds nothing. -/
def Value.isHollow : Value → Bool
  | .array elements => elements.isEmpty
  | .table _ entries => entries.isEmpty
  | _ => false

/-- The text at a key that may be missing; none if there is something else. -/
def Table.textAt? (t : Table) (key default : String) : Option String :=
  match t.find? key with
  | none => some default
  | some v => v.text?

/-- Whether all numbers at other keys than the given ones are in range. -/
def Table.othersInRange (t : Table) (known : List String) : Bool :=
  entriesInRange (t.entries.filter fun entry => entry.1 ∉ known)

end Toml

open Toml (Value Table)

/-- The generator that a value describes. A date stands for a table of no known keys. -/
def Generator.ofValue? : Value → Option Generator
  | .table making entries => do
    let t : Table := ⟨making, entries⟩
    let default : Generator := {}
    let name ← t.textAt? "name" default.name
    let version ← t.textAt? "version" default.version
    if t.othersInRange ["name", "version"] then some ⟨name, version⟩ else none
  | .array [] => some {}
  | .array [name] => name.text?.map fun name => { name }
  -- What stands behind the version is not looked at, so its integers are so in form only.
  | .array (name :: version :: _) => do return ⟨← name.text?, ← version.text?⟩
  | .dateTime => some {}
  | _ => none

/-- The mode that a value describes. -/
def Mode.ofValue? : Value → Option Mode
  | .string name => Mode.ofName? name
  | .table _ [(name, v)] => if v.isHollow then Mode.ofName? name else none
  | _ => none

namespace Config

/-- The configuration that a table describes, whether its values are well formed or not. -/
def ofTable? (t : Table) : Option Config := do
  let default : Config := {}
  let modelsNamespace ← t.textAt? "models_namespace" default.modelsNamespace.text
  let imports ← match t.find? "using" with
    | none => some default.imports
    | some v => v.texts?.map fun texts => texts.map Namespace.mk
  let generator ← match t.find? "generator" with
    | none => some default.generator
    | some v => Generator.ofValue? v
  let mode ← match t.find? "mode" with
    | none => some default.mode
    | some v => Mode.ofValue? v
  if t.othersInRange ["models_namespace", "using", "generator", "mode"] then
    some ⟨⟨modelsNamespace⟩, imports, generator, mode⟩
  else none

/-- The configuration that a file describes, which has to be without faults. -/
def ofToml (source : String) : Except Fault Config :=
  match (Toml.parse source).bind ofTable? with
  | none => .error .unreadableConfig
  | some c =>
    match c.fault? with
    | some fault => .error fault
    | none => .ok c

end Config

end ContentModels
