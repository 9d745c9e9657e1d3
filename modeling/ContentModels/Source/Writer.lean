import ContentModels.Config.Basic
import ContentModels.Resolver
import ContentModels.Source.Outline

/-!
# Writers

What is needed to write the code of models: a resolver for the names, and the generator that is
stamped on each member. This module writes what recurs in a file: names of the framework and of the
models, attributes, and the supertypes behind a colon.
-/

namespace ContentModels

/-- What is needed to write the code of models. -/
structure Writer where
  resolver : Resolver
  generator : Generator

namespace Writer

/-- A type of the framework. -/
def framework (w : Writer) (d : DeclaredType) : String := w.resolver.symbolText d

/-- The class generated for a content type. -/
def modelClass (w : Writer) (t : ContentType) : String := w.resolver.modelSymbol t.className

/-- The interface generated for a mixin. -/
def modelInterface (w : Writer) (t : ContentType) : String :=
  w.resolver.modelSymbol t.interfaceName

/-- What a header names behind its colon. -/
def supertype (w : Writer) : Supertype → String
  | .framework d => w.framework d
  | .modelClass t => w.modelClass t
  | .modelInterface t => w.modelInterface t

/-- All that a header names behind its colon. -/
def supertypes (w : Writer) (list : List Supertype) : String :=
  ", ".intercalate (list.map w.supertype)

/-- The attribute that stamps the generator on a member. -/
def generatedCode (w : Writer) : String :=
  "\t\t[global::System.CodeDom.Compiler.GeneratedCodeAttribute(\"" ++ w.generator.name ++
    "\", \"" ++ w.generator.version ++ "\")]\n"

/-- The attribute of published content `name`, with an alias as its argument. -/
def aliasAttribute (w : Writer) (indent name aliasName : String) : String :=
  indent ++ "[" ++ w.resolver.attributeText Framework.publishedContentNamespace name ++
    "(\"" ++ aliasName ++ "\")]\n"

/-- The code of a type reference. -/
def type (w : Writer) (t : TypeRef) : Draft := w.resolver.draft t

/-- The type argument of a call for the value of a property; the type of all values needs none. -/
def valueArgument (w : Writer) (p : Property) : Draft :=
  if p.type.isObject then ""
  else Draft.concat ["<", w.type p.type, ">"]

end Writer

end ContentModels
