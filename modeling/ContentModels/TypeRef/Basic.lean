import ContentModels.Namespace.Basic
import ContentModels.ItemType

/-!
# Type references

The value type of a property: a type declared in a namespace, possibly nested in others and
possibly with generic arguments; a placeholder for the model generated for another content type;
or an array of either.

`TypeRef.text` is the full spelling, which the reader of `TypeRef.Reader` accepts:
`Ns.Outer+Nested<Arg, Arg>`, `{alias:ItemType}`, `Element[]`. Some types of the namespace `System`
have a keyword, and `keyword?` and `ofKeyword?` go from one to the other.
-/

namespace ContentModels

/-- A placeholder for a generated model, known by the alias of its content type. Without an item
type, the alias has to be that of one type only. -/
structure Placeholder where
  /-- The alias of the content type. -/
  aliasName : String
  /-- The item type of the content type, where it is given. -/
  itemType : Option ItemType
deriving DecidableEq

/-- The spelling of a placeholder, such as `{page}` or `{page:Content}`. -/
def Placeholder.text (p : Placeholder) : String :=
  match p.itemType with
  | some kind => "\x7b" ++ p.aliasName ++ ":" ++ kind.name ++ "\x7d"
  | none => "\x7b" ++ p.aliasName ++ "\x7d"

/-- A reference to the value type of a property. -/
inductive TypeRef where
  /-- The type `outer` declared in `ns`, or the type nested in it that `nested` leads to, outermost
  first, with the generic arguments `args`. -/
  | named (ns : Namespace) (outer : String) (nested : List String) (args : List TypeRef)
  /-- The model of another content type. -/
  | model (target : Placeholder)
  /-- An array of one dimension. -/
  | array (element : TypeRef)

namespace TypeRef

mutual

/-- Equality of type references is decidable, by comparing them part by part. -/
def decEq : (a b : TypeRef) → Decidable (a = b)
  | .named ns outer nested args, .named ns' outer' nested' args' =>
    match decEqList args args' with
    | isTrue h =>
      if h' : ns = ns' ∧ outer = outer' ∧ nested = nested' then
        isTrue (by simp [h, h'])
      else
        isFalse (by simp only [named.injEq]; exact fun e => h' ⟨e.1, e.2.1, e.2.2.1⟩)
    | isFalse h => isFalse (by simp only [named.injEq]; exact fun e => h e.2.2.2)
  | .model p, .model q =>
    if h : p = q then isTrue (by rw [h]) else isFalse (by simpa using h)
  | .array a, .array b =>
    match decEq a b with
    | isTrue h => isTrue (by rw [h])
    | isFalse h => isFalse (by simpa using h)
  | .named .., .model _ => isFalse nofun
  | .named .., .array _ => isFalse nofun
  | .model _, .named .. => isFalse nofun
  | .model _, .array _ => isFalse nofun
  | .array _, .named .. => isFalse nofun
  | .array _, .model _ => isFalse nofun

/-- Equality of argument lists is decidable. -/
def decEqList : (as bs : List TypeRef) → Decidable (as = bs)
  | [], [] => isTrue rfl
  | [], _ :: _ => isFalse nofun
  | _ :: _, [] => isFalse nofun
  | a :: as, b :: bs =>
    match decEq a b, decEqList as bs with
    | isTrue h, isTrue h' => isTrue (by rw [h, h'])
    | isFalse h, _ => isFalse (by simp [h])
    | _, isFalse h => isFalse (by simp [h])

end

instance : DecidableEq TypeRef := decEq

/-! ## Common references -/

/-- The type `name` of `ns`, neither nested nor generic. -/
def plain (ns : Namespace) (name : String) : TypeRef := named ns name [] []

/-- The namespace of the types that have keywords. -/
def systemNamespace : Namespace := ⟨"System"⟩

/-- The type `name` of the namespace `System`. -/
def system (name : String) : TypeRef := plain systemNamespace name

/-- The type of texts. -/
def string : TypeRef := system "String"

/-- The type of integers of 32 bits. -/
def int32 : TypeRef := system "Int32"

/-- The type of truth values. -/
def boolean : TypeRef := system "Boolean"

/-- The type of all values. -/
def object : TypeRef := system "Object"

/-- The type of sequences of `element`. -/
def enumerableOf (element : TypeRef) : TypeRef :=
  named ⟨"System.Collections.Generic"⟩ "IEnumerable" [] [element]

/-! ## Keywords -/

/-- The names of `System` that have a keyword, each with its keyword. -/
def keywords : List (String × String) :=
  [("Boolean", "bool"), ("Byte", "byte"), ("Char", "char"), ("Decimal", "decimal"),
    ("Double", "double"), ("Int16", "short"), ("Int32", "int"), ("Int64", "long"),
    ("Object", "object"), ("SByte", "sbyte"), ("Single", "float"), ("String", "string"),
    ("UInt16", "ushort"), ("UInt32", "uint"), ("UInt64", "ulong"), ("Void", "void")]

/-- The type that a keyword stands for. -/
def ofKeyword? (keyword : String) : Option TypeRef :=
  (keywords.find? fun entry => entry.2 = keyword).map fun entry => system entry.1

/-- The keyword that stands for the type, if there is one: only a top-level type of `System`
without generic arguments has one. -/
def keyword? : TypeRef → Option String
  | .named ns outer [] [] =>
    if ns = systemNamespace then
      (keywords.find? fun entry => entry.1 = outer).map Prod.snd
    else none
  | _ => none

/-- Whether the reference is to the type of all values. -/
def isObject (t : TypeRef) : Bool := t.keyword? = some "object"

/-! ## Spelling -/

/-- The names of a declared type and of those nested in it, outermost first. -/
def path (outer : String) (nested : List String) : List String := outer :: nested

/-- The names of a nested type as code joins them. -/
def codePath (outer : String) (nested : List String) : String :=
  ".".intercalate (path outer nested)

/-- A generic argument list by its arguments' spellings; nothing where there are none. -/
def argumentList : List String → String
  | [] => ""
  | args => "<" ++ ", ".intercalate args ++ ">"

mutual

/-- The full spelling of a type reference. -/
def text : TypeRef → String
  | .named ns outer nested args =>
    ns.lead ++ "+".intercalate (path outer nested) ++ argumentList (texts args)
  | .model target => target.text
  | .array element => element.text ++ "[]"

/-- The full spellings of several type references. -/
def texts : List TypeRef → List String
  | [] => []
  | t :: ts => t.text :: texts ts

end

/-! ## Placeholders -/

mutual

/-- The placeholders in a type reference, from left to right, those in generic arguments
included. -/
def placeholders : TypeRef → List Placeholder
  | .named _ _ _ args => placeholdersOfList args
  | .model target => [target]
  | .array element => element.placeholders

/-- The placeholders in several type references. -/
def placeholdersOfList : List TypeRef → List Placeholder
  | [] => []
  | t :: ts => t.placeholders ++ placeholdersOfList ts

end

end TypeRef

end ContentModels
