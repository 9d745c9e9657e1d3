import ContentModels.Hierarchy.Validity
import ContentModels.Source.File

/-!
# Builders

A builder holds a checked configuration, the hierarchy of the content types and the symbols of all
that code may see, and writes the source files of models.

Models are asked for by content types that stand for those of the hierarchy: only alias and item
type count. That all of them are generated is checked before anything is written.
-/

namespace ContentModels

/-- What is needed to write the source files of models. -/
structure Builder where
  config : Config
  hierarchy : Hierarchy
  symbols : SymbolTable

namespace Builder

/-- The builder for the given content types, and for the types that code may see beside them. -/
def make (config : Config) (types : List ContentType) (catalog : List DeclaredType) :
    Except Fault Builder :=
  match config.fault? with
  | some fault => .error fault
  | none =>
    match Hierarchy.ofTypes config.mode types with
    | .error fault => .error fault
    | .ok hierarchy =>
      .ok ⟨config, hierarchy, .build catalog hierarchy config.modelsNamespace⟩

/-- The place that files are written for. -/
def scope (b : Builder) : Scope := ⟨b.config.modelsNamespace, b.config.imports⟩

/-- The resolver for that place. -/
def resolver (b : Builder) : Resolver := ⟨b.symbols, b.hierarchy, b.scope⟩

/-- The writer for that place. -/
def writer (b : Builder) : Writer := ⟨b.resolver, b.config.generator⟩

/-- The types that a model is generated for, in the order of their declaration. -/
def generatedTypes (b : Builder) : List ContentType := b.hierarchy.generatedTypes

/-- The hierarchy's own type for a requested one, if a model is generated for it. -/
def requested (b : Builder) (t : ContentType) : Except Fault ContentType :=
  match (b.hierarchy.own? t).filter b.hierarchy.isGenerated with
  | some own => .ok own
  | none => .error (.unknownModel t.aliasName)

/-- The file that holds the models of all the requested types. -/
def generateAll (b : Builder) (types : List ContentType) : Draft :=
  -- All requests are looked up first, so that a fault among them leaves no text behind.
  match types.mapM b.requested with
  | .error fault => .fail fault
  | .ok models => b.writer.file models

/-- The file that holds the model of one type. -/
def generate (b : Builder) (t : ContentType) : Draft := b.generateAll [t]

/-- A type reference as the files write it. -/
def type (b : Builder) (t : TypeRef) : Draft := b.resolver.draft t

end Builder

end ContentModels
