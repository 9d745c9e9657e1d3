import ContentModels.Source.Member

/-!
# Classes and interfaces

The code that is generated for one content type: the interface, if it is a mixin, and the class.
-/

namespace ContentModels

namespace Writer

/-- The hierarchy of the content types that are written. -/
def hierarchy (w : Writer) : Hierarchy := w.resolver.hierarchy

/-- The interface of a mixin. -/
def interfaceOf (w : Writer) (t : ContentType) : Draft :=
  Draft.concat
    ["\t// Mixin Content Type with alias \"", t.aliasName, "\"\n",
      Comment.summaryLine "\t" "" t.name, "\tpublic partial interface ", t.interfaceName, " : ",
      w.supertypes (w.hierarchy.interfaceSupertypes t), "\n\t\x7b\n",
      Draft.join "\n" (t.sortedProperties.map w.interfaceMember), "\t\x7d\n\n"]

/-- The constants and the static functions of a class. -/
def helpers (w : Writer) (t : ContentType) : String :=
  String.join
    ["\t\t// helpers\n", "#pragma warning disable 0109 // new is redundant\n",
      w.generatedCode,
      "\t\tpublic new const string ModelTypeAlias = \"", t.aliasName, "\";\n",
      w.generatedCode,
      "\t\tpublic new const ", w.framework Framework.publishedItemType, " ModelItemType = ",
      w.framework Framework.publishedItemType, ".", t.publishedItemType.name, ";\n",
      w.generatedCode,
      "\t\tpublic new static ", w.framework Framework.contentType, " GetModelContentType(",
      w.framework Framework.snapshotAccessor, " publishedSnapshotAccessor)\n\t\t\t=> ",
      w.framework Framework.modelUtility,
      ".GetModelContentType(publishedSnapshotAccessor, ModelItemType, ModelTypeAlias);\n",
      w.generatedCode,
      "\t\tpublic static ", w.framework Framework.propertyType, " GetModelPropertyType<TValue>(",
      w.framework Framework.snapshotAccessor, " publishedSnapshotAccessor, ",
      w.framework Framework.expression, "<", w.framework Framework.function, "<",
      w.modelClass t, ", TValue>> selector)\n\t\t\t=> ", w.framework Framework.modelUtility,
      ".GetModelPropertyType(GetModelContentType(publishedSnapshotAccessor), selector);\n",
      "#pragma warning restore 0109\n\n"]

/-- The constructor of a class, and the field that it sets. -/
def constructor (w : Writer) (t : ContentType) : String :=
  let parameter (a : Argument) : String := w.framework (t.argumentType a) ++ " " ++ a.name
  String.join
    ["\t\tprivate ", w.framework Framework.valueFallback, " _publishedValueFallback;\n\n",
      "\t\t// ctor\n", "\t\tpublic ", t.className, "(",
      ", ".intercalate (t.constructorParameters.map parameter), ")\n",
      "\t\t\t: base(", ", ".intercalate (t.baseArguments.map Argument.name), ")\n",
      "\t\t\x7b\n", "\t\t\t_publishedValueFallback = publishedValueFallback;\n", "\t\t\x7d\n\n"]

/-- The class of a content type. -/
def classOf (w : Writer) (t : ContentType) : Draft :=
  Draft.concat
    [Comment.summaryLine "\t" "" t.name, w.aliasAttribute "\t" "PublishedModel" t.aliasName,
      "\tpublic partial class ", t.className, " : ",
      w.supertypes (w.hierarchy.classSupertypes t), "\n\t\x7b\n", w.helpers t, w.constructor t,
      "\t\t// properties\n", Draft.concat ((w.hierarchy.members t).map w.member), "\t\x7d\n"]

/-- All that is generated for a content type. -/
def model (w : Writer) (t : ContentType) : Draft :=
  (if t.isMixin then w.interfaceOf t else "") ++ w.classOf t

end Writer

end ContentModels
