import ContentModels.Span

/-!
# Diagnostics

A diagnostic tells one problem in a text: how severe it is, what is wrong, which spans of the text
it concerns, and what may help. A report is the list of the diagnostics of one reading.
-/

namespace ContentModels

/-- How severe a problem is. -/
inductive Severity where
  | error
  | warning
deriving DecidableEq

/-- The word for a severity. -/
def Severity.text : Severity → String
  | error => "error"
  | warning => "warning"

/-- The kinds of problem that have a code. -/
inductive Code where
  | expectedTypeName
  | trailingInput
  | unterminatedArguments
  | missingAlias
  | unknownItemType
  | unterminatedPlaceholder
  | expectedIdentifier
  | invalidNamespace
  | unterminatedRank
deriving DecidableEq

namespace Code

/-- All codes, in the order of their numbers. -/
def all : List Code :=
  [expectedTypeName, trailingInput, unterminatedArguments, missingAlias, unknownItemType,
    unterminatedPlaceholder, expectedIdentifier, invalidNamespace, unterminatedRank]

/-- The code as it is written. -/
def text : Code → String
  | expectedTypeName => "E100"
  | trailingInput => "E101"
  | unterminatedArguments => "E102"
  | missingAlias => "E103"
  | unknownItemType => "E104"
  | unterminatedPlaceholder => "E105"
  | expectedIdentifier => "E106"
  | invalidNamespace => "E107"
  | unterminatedRank => "E108"

/-- A few words on the kind of problem, for use in labels. -/
def description : Code → String
  | expectedTypeName => "expected type name"
  | trailingInput => "unexpected trailing input"
  | unterminatedArguments => "unterminated generic arguments"
  | missingAlias => "missing model alias"
  | unknownItemType => "unknown item type"
  | unterminatedPlaceholder => "unterminated placeholder"
  | expectedIdentifier => "expected identifier"
  | invalidNamespace => "invalid namespace"
  | unterminatedRank => "unterminated array rank"

end Code

/-- A remark on a span of the text. The primary labels mark the problem itself, the others what
helps to understand it. -/
structure Label where
  span : Span
  message : String
  isPrimary : Bool
deriving DecidableEq

/-- A label on the problem itself. -/
def Label.primary (span : Span) (message : String) : Label := ⟨span, message, true⟩

/-- A label on what helps to understand the problem. -/
def Label.secondary (span : Span) (message : String) : Label := ⟨span, message, false⟩

/-- One problem in a text. -/
structure Diagnostic where
  severity : Severity
  code : Option Code
  message : String
  labels : List Label
  help : Option String
deriving DecidableEq

namespace Diagnostic

/-- The span of the first primary label. -/
def primarySpan? (d : Diagnostic) : Option Span :=
  (d.labels.find? Label.isPrimary).map Label.span

/-- The diagnostic in one line: severity, code and message. -/
def text (d : Diagnostic) : String :=
  let code := match d.code with
    | some code => "[" ++ code.text ++ "]"
    | none => ""
  d.severity.text ++ code ++ ": " ++ d.message

end Diagnostic

/-- The diagnostics of one reading. -/
structure Report where
  diagnostics : List Diagnostic
deriving DecidableEq

/-- The report in one line: the first diagnostic, and how many more there are. -/
def Report.summary (r : Report) : String :=
  match r.diagnostics with
  | [] => ""
  | [d] => d.text
  | d :: rest => d.text ++ " (+" ++ toString rest.length ++ " more)"

end ContentModels
