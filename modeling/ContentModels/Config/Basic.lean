import ContentModels.Fault
import ContentModels.Mode
import ContentModels.Namespace.Reader
import ContentModels.Text.WhiteSpace

/-!
# Configurations

All that shapes the generated text apart from the content types: the namespace that the models are
written into, the namespaces that every file imports, the generator that stamps its name and version
on the code, and the mode.

Each setter refuses a value that is not well formed, and `Config.fault?` finds in a whole
configuration what the setters would refuse.
-/

namespace ContentModels

/-- The version of this library, and that of the generator where none is configured. -/
def version : String := "0.1.0"

/-- The name and the version that are stamped on generated code. -/
structure Generator where
  name : String := "Umbraco.ModelsBuilder.Embedded"
  version : String := ContentModels.version
deriving DecidableEq

namespace Generator

/-- What is wrong with a generator: neither its name nor its version may be blank. -/
def fault? (g : Generator) : Option Fault :=
  if isBlankText g.name then some .blankGeneratorName
  else if isBlankText g.version then some .blankGeneratorVersion
  else none

/-- The generator of the given name and version. -/
def make (name version : String) : Except Fault Generator :=
  let g : Generator := ⟨name, version⟩
  match g.fault? with
  | some fault => .error fault
  | none => .ok g

end Generator

/-- What is wrong with a namespace that was not read from a text. -/
def Namespace.fault? (ns : Namespace) : Option Fault :=
  match Namespace.parse ns.text with
  | .error report => some (.malformedName report)
  | .ok _ => none

/-- The namespaces that every file imports where none are configured. -/
def defaultImports : List Namespace :=
  [⟨"System"⟩, ⟨"System.Linq.Expressions"⟩, ⟨"Umbraco.Cms.Core.Models.PublishedContent"⟩,
    ⟨"Umbraco.Cms.Core.PublishedCache"⟩, ⟨"Umbraco.Cms.ModelsBuilder.Embedded"⟩,
    ⟨"Umbraco.Cms.Core"⟩, ⟨"Umbraco.Extensions"⟩]

/-- All that shapes the generated text apart from the content types. -/
structure Config where
  /-- The namespace that the models are written into. -/
  modelsNamespace : Namespace := ⟨"Umbraco.Cms.Web.Common.PublishedModels"⟩
  /-- The namespaces that every file imports, in order. -/
  imports : List Namespace := defaultImports
  /-- The generator that is stamped on the code. -/
  generator : Generator := {}
  /-- How the models are used. -/
  mode : Mode := .sourceCode
deriving DecidableEq

namespace Config

/-- The configuration with another namespace for the models. -/
def setModelsNamespace (c : Config) (text : String) : Except Fault Config :=
  match Namespace.parse text with
  | .error report => .error (.malformedName report)
  | .ok ns => .ok { c with modelsNamespace := ns }

/-- The configuration with one more import, which has to be a new one. -/
def addImport (c : Config) (text : String) : Except Fault Config :=
  match Namespace.parse text with
  | .error report => .error (.malformedName report)
  | .ok ns =>
    if ns ∈ c.imports then .error (.alreadyImported ns)
    else .ok { c with imports := c.imports ++ [ns] }

/-- The configuration without any import. -/
def clearImports (c : Config) : Config := { c with imports := [] }

/-- The configuration with another generator. -/
def setGenerator (c : Config) (generator : Generator) : Config := { c with generator }

/-- The configuration with another mode. -/
def setMode (c : Config) (mode : Mode) : Config := { c with mode }

/-- The first fault among imports: one that is malformed, or one that is there before. -/
def importsFault? (seen : List Namespace) : List Namespace → Option Fault
  | [] => none
  | ns :: rest =>
    ns.fault? <|>
      if ns ∈ seen then some (.importedTwice ns) else importsFault? (ns :: seen) rest

/-- The first fault of a configuration: of the models' namespace, of the imports in order, of the
generator. -/
def fault? (c : Config) : Option Fault :=
  c.modelsNamespace.fault? <|> importsFault? [] c.imports <|> c.generator.fault?

end Config

end ContentModels
