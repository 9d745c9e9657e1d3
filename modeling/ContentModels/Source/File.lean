import ContentModels.Source.Class

/-!
# Files

A source file: a header that names the generator, the imports, and a namespace with the models.
-/

namespace ContentModels

namespace Writer

/-- The line that sets off the header. -/
def headerRule : String :=
  "//------------------------------------------------------------------------------\n"

/-- What stands before the models of a file: the header, the imports, and the start of the
namespace. -/
def fileStart (w : Writer) : String :=
  let scope := w.resolver.scope
  String.join
    [headerRule, "// <auto-generated>\n", "//   This code was generated by a tool.\n", "//\n",
      "//    ", w.generator.name, " v", w.generator.version, "\n", "//\n",
      "//   Changes to this file will be lost if the code is regenerated.\n",
      "// </auto-generated>\n", headerRule, "\n",
      String.join (scope.imports.map fun ns => "using " ++ ns.text ++ ";\n"), "\n",
      "namespace ", scope.target.text, "\n", "\x7b\n"]

/-- What stands behind the models of a file. -/
def fileEnd : String := "\x7d\n"

/-- The file of several models. -/
def file (w : Writer) (models : List ContentType) : Draft :=
  Draft.concat [w.fileStart, Draft.join "\n" (models.map w.model), fileEnd]

end Writer

end ContentModels
