import ContentModels.Source.Comment
import ContentModels.Source.Writer

/-!
# Members

The code of one property in a class or in an interface.

A property that the class itself implements asks the published item for its value. In the class of
a mixin it asks a static getter, which is written beside it and takes the mixin's interface, so that
the classes composed of the mixin ask the same getter. A property that cannot be implemented is
written inside a comment.
-/

namespace ContentModels

namespace Writer

/-- The static getter of a property in the class of a mixin. -/
def getter (w : Writer) (owner : ContentType) (p : Property) : Draft :=
  Draft.concat
    ["\n", Comment.summaryLine "\t\t" "Static getter for " p.name, w.generatedCode,
      "\t\tpublic static ", w.type p.type, " Get", p.memberName, "(", w.modelInterface owner,
      " that, ", w.framework Framework.valueFallback,
      " publishedValueFallback) => that.Value", w.valueArgument p,
      "(publishedValueFallback, \"", p.aliasName, "\");\n"]

/-- What stands behind the arrow of a member. -/
def memberBody (w : Writer) (m : Member) : Draft :=
  match m.delivery with
  | .value =>
    Draft.concat
      ["this.Value", w.valueArgument m.property, "(_publishedValueFallback, \"",
        m.property.aliasName, "\");\n"]
  | .ownGetter _ =>
    Draft.ofString ("Get" ++ m.property.memberName ++ "(this, _publishedValueFallback);\n")
  | .getterOf owner =>
    Draft.ofString (w.modelClass owner ++ ".Get" ++ m.property.memberName ++
      "(this, _publishedValueFallback);\n")

/-- A member as active code. -/
def memberCode (w : Writer) (m : Member) : Draft :=
  Draft.concat
    [Comment.propertySummary m.property, w.generatedCode,
      w.aliasAttribute "\t\t" "ImplementPropertyType" m.property.aliasName,
      "\t\tpublic ", w.type m.property.type, " ", m.property.memberName, " => ", w.memberBody m]

/-- A member of a class, inside a comment if it is disabled, and the static getter beside it if it
asks one. -/
def member (w : Writer) (m : Member) : Draft :=
  let code :=
    if m.isDisabled then
      Draft.concat
        [Comment.openBlock m.property.errors, w.memberCode m, Comment.closeBlock]
    else w.memberCode m
  let getter := match m.delivery with
    | .ownGetter owner => w.getter owner m.property
    | _ => ""
  Draft.concat ["\n", code, getter]

/-- A property in the interface of a mixin. -/
def interfaceMember (w : Writer) (p : Property) : Draft :=
  Draft.concat
    [Comment.summaryLine "\t\t" "" p.name, w.generatedCode, "\t\t", w.type p.type, " ",
      p.memberName, " \x7b get; \x7d\n"]

end Writer

end ContentModels
