/-!
# Namespaces

A namespace is known by its dotted text, such as `System.Text`. The empty text is the global
namespace, under which nesting changes nothing: a segment placed there is itself.
-/

namespace ContentModels

/-- A namespace, or a name seen as the namespace of what is nested in it, by its dotted text. -/
structure Namespace where
  /-- The dotted text, empty for the global namespace. -/
  text : String
deriving DecidableEq

namespace Namespace

/-- The global namespace, which has no name. -/
def global : Namespace := ⟨""⟩

/-- Whether the namespace is the global one. -/
def isGlobal (ns : Namespace) : Bool := ns = global

/-- The child of `ns` under the name `child`; under the global namespace, `child` itself. -/
def nest (ns child : Namespace) : Namespace :=
  if ns.isGlobal then child else ⟨ns.text ++ "." ++ child.text⟩

/-- The namespace whose segments, outermost first, are the given ones. -/
def ofSegments (segments : List String) : Namespace := ⟨".".intercalate segments⟩

/-- What stands before a name declared in the namespace: its text and a dot, and nothing for the
global namespace. -/
def lead (ns : Namespace) : String :=
  if ns.isGlobal then "" else ns.text ++ "."

@[simp]
theorem isGlobal_iff (ns : Namespace) : ns.isGlobal = true ↔ ns = global := by
  simp [isGlobal]

/-- Nesting under the global namespace is the child. -/
@[simp]
theorem global_nest (child : Namespace) : global.nest child = child := by
  simp [nest]

end Namespace

/-- The names met so far, each of which can be found again by its text. -/
structure NamePool where
  /-- The names, the latest first. -/
  names : List Namespace

namespace NamePool

/-- A pool that holds the global namespace only. -/
def start : NamePool := ⟨[.global]⟩

/-- The pool with one more name. -/
def add (pool : NamePool) (name : Namespace) : NamePool := ⟨name :: pool.names⟩

/-- The name of the given text, if the pool has met it. -/
def find? (pool : NamePool) (text : String) : Option Namespace :=
  pool.names.find? fun name => name.text = text

end NamePool

end ContentModels
