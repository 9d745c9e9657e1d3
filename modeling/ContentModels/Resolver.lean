import ContentModels.Draft
import ContentModels.SymbolTable

/-!
# Resolving references

A resolver writes type references as code inside a namespace that imports others. A name is written
short if its namespace can be seen from there and no other visible declaration shares it; otherwise
it is written with its namespace in full, rooted by `global::`. A placeholder is written as the
model that it designates.
-/

namespace ContentModels

/-- A place for code: the namespace that it is written into, and those that it imports. -/
structure Scope where
  target : Namespace
  imports : List Namespace
deriving DecidableEq

/-- Whether the declarations of a namespace can be seen from a place. -/
def Scope.sees (scope : Scope) (ns : Namespace) : Bool :=
  ns = scope.target || ns ∈ scope.imports || ns.isGlobal

/-- What is needed to write type references in one place. -/
structure Resolver where
  symbols : SymbolTable
  hierarchy : Hierarchy
  scope : Scope

namespace Resolver

/-! ## Names -/

/-- The declarations of a short name that can be seen. -/
def visibleDeclarations (r : Resolver) (symbol : String) : List Declaration :=
  (r.symbols.declarationsOf symbol).filter fun d => r.scope.sees d.ns

/-- Whether a symbol of the given namespace must not be written short: its namespace cannot be
seen, or a visible declaration of the symbol is in another namespace, or there are several. -/
def isAmbiguous (r : Resolver) (symbol : String) (ns : Namespace) : Bool :=
  if r.scope.sees ns then
    match r.visibleDeclarations symbol with
    | [] => false
    | [d] => d.ns ≠ ns
    | _ => true
  else true

/-- What stands before a symbol of the given namespace. -/
def qualifier (r : Resolver) (symbol : String) (ns : Namespace) : String :=
  if r.isAmbiguous symbol ns then "global::" ++ ns.lead else ""

/-- A top-level type without arguments. -/
def symbolText (r : Resolver) (d : DeclaredType) : String := r.qualifier d.name d.ns ++ d.name

/-- The name of an attribute, which leaves out the end `Attribute` of its class's name. -/
def attributeText (r : Resolver) (ns : Namespace) (name : String) : String :=
  r.qualifier (name ++ "Attribute") ns ++ name

/-- A symbol that is declared with the models. -/
def modelSymbol (r : Resolver) (symbol : String) : String :=
  r.symbolText ⟨r.symbols.modelsNamespace, symbol⟩

/-! ## Types -/

/-- The generated model that a placeholder designates. -/
def modelOf (r : Resolver) (p : Placeholder) : Except Fault ContentType :=
  let candidates := match p.itemType with
    | some itemType => (r.hierarchy.find? p.aliasName itemType).toList
    | none => r.hierarchy.withAlias p.aliasName
  match candidates with
  | [] => .error (.unknownModel p.text)
  | [t] => if r.hierarchy.isGenerated t then .ok t else .error (.unknownModel p.text)
  | _ => .error (.ambiguousModel p.text)

mutual

/-- A type reference as code. -/
def draft (r : Resolver) : TypeRef → Draft
  | .named ns outer nested args =>
    match (TypeRef.named ns outer nested args).keyword? with
    | some keyword => keyword
    | none =>
      Draft.ofString (r.qualifier outer ns ++ TypeRef.codePath outer nested) ++
        match args with
        | [] => Draft.ofString ""
        | args => Draft.ofString "<" ++ Draft.join ", " (r.drafts args) ++ Draft.ofString ">"
  | .model target =>
    match r.modelOf target with
    -- What stands before the placeholder has been written by now, and stays in the draft.
    | .error fault => .fail fault
    | .ok t => r.modelSymbol t.className
  | .array element => r.draft element ++ Draft.ofString "[]"

/-- Several type references as code. -/
def drafts (r : Resolver) : List TypeRef → List Draft
  | [] => []
  | t :: ts => r.draft t :: r.drafts ts

end

/-- A type reference as code, or the fault that keeps it from being written. -/
def resolve (r : Resolver) (t : TypeRef) : Except Fault String := (r.draft t).toExcept

end Resolver

end ContentModels
