import ContentModels.Identifier
import ContentModels.Diagnostic
import ContentModels.Namespace.Basic

/-!
# Reading namespaces

A namespace is written as identifiers joined by single dots. `Namespace.parse` takes such a text as
it stands; of any other it tells how far the longest namespace at its front goes.
-/

namespace ContentModels

namespace Namespace

/-- What remains behind as many identifiers, each behind a dot, as there are. A dot without an
identifier behind it is left. -/
def afterSegments (s : List Char) : Remainder s :=
  match next? '.' s with
  | none => .all s
  | some r =>
    match readName? r.val with
    | none => .all s
    | some (_, r') =>
      let read := r.trans r'.toRemainder
      read.toRemainder.trans (afterSegments read.val)
termination_by s.length
decreasing_by exact read.property

/-- What remains behind the longest namespace at the front of the text, if there is one. -/
def afterNamespace? (s : List Char) : Option (Shorter s) :=
  (readName? s).map fun (_, r) => r.trans (afterSegments r.val)

/-- The report of a text that is no namespace: its label starts where the longest namespace at the
front ends, and goes to the end of the text. -/
def invalidReport (source : String) : Report :=
  let s := source.toList
  let rest := match afterNamespace? s with
    | some r => r.val
    | none => s
  let start := byteLength s - byteLength rest
  ⟨[{ severity := .error
      code := some .invalidNamespace
      message := "`" ++ source ++ "` is not a valid namespace"
      labels :=
        [.primary (.between start (max (byteLength s) (start + 1)))
          Code.invalidNamespace.description]
      help := some "namespaces are identifiers separated by `.`, e.g. `My.Models`" }]⟩

/-- Reads a text that is a namespace and nothing else. -/
def parse (source : String) : Except Report Namespace :=
  match afterNamespace? source.toList with
  | some ⟨[], _⟩ => .ok ⟨source⟩
  | _ => .error (invalidReport source)

end Namespace

end ContentModels
