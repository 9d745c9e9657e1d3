import ContentModels.Proofs.Draft
import ContentModels.Proofs.Resolver.Ambiguity

/-!
# What a short name can be captured by

A name without its namespace is searched for in more namespaces than the resolver sees: those around
the target are searched too, from the inside out, before the imports (`Scope.Searches`). Of a symbol
that is written short, no other namespace that the resolver sees has a declaration, so another one
is found only in a namespace around the target, and there it can be (`declared_only_in_iff`). A type
of an import is then written by a name that means a type of that namespace (`widget_captured`).
-/

namespace ContentModels

/-- The namespace lies around another one: that one is nested in it. -/
def Namespace.Encloses (outer inner : Namespace) : Prop :=
  outer ≠ .global ∧ ∃ rest : Namespace, inner = outer.nest rest

/-- In a place, a name without its namespace is searched for in the namespace: it is the target,
lies around the target, is the global one or is imported. -/
def Scope.Searches (scope : Scope) (ns : Namespace) : Prop :=
  ns = scope.target ∨ ns.Encloses scope.target ∨ ns = .global ∨ ns ∈ scope.imports

/-- What is searched can be seen, or lies around the target. -/
theorem Scope.searches_iff {scope : Scope} {ns : Namespace} :
    scope.Searches ns ↔ scope.Visible ns ∨ ns.Encloses scope.target := by
  unfold Scope.Searches Scope.Visible
  tauto

namespace Resolver

/-- Of the given namespaces, none but `ns` declares the symbol. -/
def DeclaredOnlyIn (r : Resolver) (symbol : String) (ns : Namespace) (among : Namespace → Prop) :
    Prop :=
  ∀ d ∈ r.symbols.declarationsOf symbol, among d.ns → d.ns = ns

/-- A symbol that can be written short is declared in no other visible namespace. -/
theorem declaredOnlyIn_visible {r : Resolver} {symbol : String} {ns : Namespace}
    (hshort : r.isAmbiguous symbol ns = false) :
    r.DeclaredOnlyIn symbol ns r.scope.Visible := by
  intro d hd hvisible
  have hmem : d ∈ r.visibleDeclarations symbol :=
    List.mem_filter.2 ⟨hd, Scope.sees_iff.2 hvisible⟩
  obtain ⟨-, hnone | ⟨e, hone, hns⟩⟩ := isAmbiguous_eq_false_iff.1 hshort
  · rw [hnone] at hmem
    cases hmem
  · rw [hone] at hmem
    rw [List.mem_singleton.1 hmem, hns]

/-- A symbol that can be written short is declared in no other namespace that the resolver sees. It
is declared in no other that is searched for it exactly if it is in no other around the target. -/
theorem declared_only_in_iff {r : Resolver} {symbol : String} {ns : Namespace}
    (hshort : r.isAmbiguous symbol ns = false) :
    r.DeclaredOnlyIn symbol ns r.scope.Visible ∧
      (r.DeclaredOnlyIn symbol ns r.scope.Searches ↔
        r.DeclaredOnlyIn symbol ns fun other => other.Encloses r.scope.target) := by
  have hvisible := declaredOnlyIn_visible hshort
  refine ⟨hvisible, fun hsearched d hd haround => ?_, fun haround d hd hsearched => ?_⟩
  · exact hsearched d hd (Scope.searches_iff.2 (.inr haround))
  · rcases Scope.searches_iff.1 hsearched with hseen | henclosing
    · exact hvisible d hd hseen
    · exact haround d hd henclosing

/-- The widgets and gadgets of a library, and the widgets of the namespace around the models. -/
def widgets : List DeclaredType :=
  [⟨⟨"Lib"⟩, "Gadget"⟩, ⟨⟨"Lib"⟩, "Widget"⟩, ⟨⟨"My"⟩, "Widget"⟩]

/-- The resolver for models beside the widgets, with the library imported. -/
def widgetResolver : Resolver :=
  ⟨.build widgets ⟨[]⟩ ⟨"My.Models"⟩, ⟨[]⟩, ⟨⟨"My.Models"⟩, [⟨"Lib"⟩]⟩⟩

/-- The gadget of the library is written short, and no other is found by its name. -/
theorem gadget_declared_only :
    widgetResolver.isAmbiguous "Gadget" ⟨"Lib"⟩ = false ∧
      widgetResolver.DeclaredOnlyIn "Gadget" ⟨"Lib"⟩ widgetResolver.scope.Searches := by
  have hshort : widgetResolver.isAmbiguous "Gadget" ⟨"Lib"⟩ = false := by decide +kernel
  have hall : ∀ d ∈ widgetResolver.symbols.declarationsOf "Gadget", d.ns = ⟨"Lib"⟩ := by
    decide +kernel
  exact ⟨hshort, (declared_only_in_iff hshort).2.2 fun d hd _ => hall d hd⟩

/-- The widget of the library is written short too, though a widget is declared around the models,
where the name is searched for before the imports. -/
theorem widget_captured :
    Hierarchy.ofTypes .sourceCode [] = .ok widgetResolver.hierarchy ∧
      widgetResolver.isAmbiguous "Widget" ⟨"Lib"⟩ = false ∧
      widgetResolver.resolve (.plain ⟨"Lib"⟩ "Widget") = .ok "Widget" ∧
      ¬ widgetResolver.DeclaredOnlyIn "Widget" ⟨"Lib"⟩ widgetResolver.scope.Searches := by
  have htext : widgetResolver.resolve (.plain ⟨"Lib"⟩ "Widget") = .ok "Widget" :=
    Draft.toExcept_eq_ok_iff.2 (by decide +kernel)
  refine ⟨Hierarchy.ofTypes_sourceCode_eq_ok (by decide +kernel), by decide +kernel, htext,
    fun honly => ?_⟩
  have hmem : ⟨"Widget", ⟨"My"⟩, .catalog⟩ ∈ widgetResolver.symbols.declarationsOf "Widget" := by
    decide +kernel
  have haround : Namespace.Encloses ⟨"My"⟩ ⟨"My.Models"⟩ := ⟨by decide, ⟨"Models"⟩, by decide⟩
  have hsame := honly _ hmem (.inr (.inl haround))
  exact absurd hsame (by decide)

end Resolver

end ContentModels
