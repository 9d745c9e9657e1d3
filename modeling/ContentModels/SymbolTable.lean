import ContentModels.Catalog
import ContentModels.Hierarchy.Interfaces

/-!
# Symbol tables

Which declarations a short name has: the catalog's types, and the models and mixin interfaces that
are generated, all of which are declared in the models' namespace.
-/

namespace ContentModels

/-- Where a declaration comes from. -/
inductive Origin where
  /-- A type of the catalog. -/
  | catalog
  /-- The model of the type of the given identity. -/
  | model (id : Int)
  /-- The interface of the mixin of the given identity. -/
  | mixinInterface (id : Int)
deriving DecidableEq

/-- The declaration of a short name in a namespace. -/
structure Declaration where
  symbol : String
  ns : Namespace
  origin : Origin
deriving DecidableEq

/-- All declarations that generated code may meet. -/
structure SymbolTable where
  /-- The declarations, each once. -/
  entries : List Declaration
  /-- The namespace that models are declared in. -/
  modelsNamespace : Namespace

namespace SymbolTable

/-- The declarations that the model of a type makes: its class and, if it is a mixin, its
interface. -/
def ofModel (modelsNamespace : Namespace) (t : ContentType) : List Declaration :=
  ⟨t.className, modelsNamespace, .model t.id⟩ ::
    if t.isMixin then [⟨t.interfaceName, modelsNamespace, .mixinInterface t.id⟩] else []

/-- The table of the catalog's types and of all that is generated from a hierarchy. -/
def build (catalog : List DeclaredType) (h : Hierarchy) (modelsNamespace : Namespace) :
    SymbolTable :=
  { entries :=
      (catalog.map (fun d => Declaration.mk d.name d.ns .catalog) ++
        h.generatedTypes.flatMap (ofModel modelsNamespace)).eraseDups
    modelsNamespace }

/-- The declarations of a short name. -/
def declarationsOf (table : SymbolTable) (symbol : String) : List Declaration :=
  table.entries.filter fun d => d.symbol = symbol

end SymbolTable

end ContentModels
