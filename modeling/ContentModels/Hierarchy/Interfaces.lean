import ContentModels.Sorting
import ContentModels.Hierarchy.Basic

/-!
# Selection and interfaces

Which types a model is generated for, and which mixins' interfaces a type declares and implements.

A type inherits all that its base reaches. It declares the mixins that it does not inherit, and
implements every mixin that these reach and that it does not inherit. A mixin that no model is
generated for has no interface; `lifted` takes in its place the generated mixins that it is
composed of.
-/

namespace ContentModels

namespace Hierarchy

/-! ## Selection -/

/-- Whether a placeholder in an active property of a type that is not ignored may stand for `t`. -/
def isReferenced (h : Hierarchy) (t : ContentType) : Bool :=
  (h.own? t).isSome &&
    h.types.any fun u =>
      !u.ignored && u.activeProperties.any fun p => p.type.placeholders.any (·.fits t)

/-- Whether a model is generated for `t`: it is not ignored and, if it is only there for other
types to be composed of, something refers to it. -/
def isGenerated (h : Hierarchy) (t : ContentType) : Bool :=
  !t.ignored && (!t.isCompositionOnly || h.isReferenced t)

/-- The types that a model is generated for. -/
def generatedTypes (h : Hierarchy) : List ContentType := h.types.filter h.isGenerated

/-! ## Interfaces -/

/-- All that the base of a type reaches, itself included. -/
def inheritedBy (h : Hierarchy) (t : ContentType) : List ContentType :=
  match h.baseOf? t with
  | none => []
  | some base => h.closure base

/-- The mixins of a type that it does not inherit. -/
def declaredBy (h : Hierarchy) (t : ContentType) : List ContentType :=
  let inherited := h.inheritedBy t
  (h.mixinsOf t).filter (· ∉ inherited)

/-- The mixins that the declared ones reach and that the type does not inherit, in the order in
which they are met. -/
def implementedBy (h : Hierarchy) (t : ContentType) : List ContentType :=
  let inherited := h.inheritedBy t
  ((h.declaredBy t).flatMap fun mixin =>
    (h.closure mixin).filter fun m => m.isMixin && m ∉ inherited).eraseDups

/-- The graph of what stands in the place of mixins without an interface: an edge leads from a mixin
that is neither generated nor inherited by `t` to each of its own mixins. -/
def liftingGraph (h : Hierarchy) (t : ContentType) : Digraph ContentType :=
  let inherited := h.inheritedBy t
  ⟨h.types, fun m => if m ∈ inherited || h.isGenerated m then [] else h.mixinsOf m⟩

/-- The generated mixins whose interfaces stand for the mixins that a type declares, sorted by
class name. -/
def lifted (h : Hierarchy) (t : ContentType) : List ContentType :=
  let inherited := h.inheritedBy t
  sortBy ContentType.className
    -- A walk meets each mixin once, on however many ways it is reached.
    (((h.liftingGraph t).walk h.types (h.declaredBy t)).filter fun m =>
      h.isGenerated m && m ∉ inherited)

/-! ## Standing -/

/-- What a hierarchy says of a content type. -/
structure Standing where
  /-- The type that it inherits from. -/
  base : Option ContentType
  /-- The mixins that it is composed of. -/
  mixins : List ContentType
  /-- The mixins whose interfaces it declares. -/
  declared : List ContentType
  /-- The mixins whose properties it implements. -/
  implemented : List ContentType
  /-- The types that its base reaches, in the order of their declaration. -/
  inherited : List ContentType
  /-- Whether a property refers to it. -/
  referenced : Bool
  /-- Whether a model is generated for it. -/
  generated : Bool

/-- Whether `t` inherits `u`, both known by alias and item type. -/
def inherits (h : Hierarchy) (t u : ContentType) : Bool :=
  match h.own? t, h.own? u with
  | some t, some u => u ∈ h.inheritedBy t
  | _, _ => false

/-- What the hierarchy says of `t`, which is known by its alias and item type: its links are those
of the hierarchy's own type. -/
def standing (h : Hierarchy) (t : ContentType) : Standing :=
  let own := h.own? t
  { base := own.bind h.baseOf?
    mixins := own.elim [] h.mixinsOf
    declared := own.elim [] h.declaredBy
    implemented := own.elim [] h.implementedBy
    inherited := own.elim [] fun own =>
      let inherited := h.inheritedBy own
      h.types.filter (· ∈ inherited)
    referenced := h.isReferenced t
    generated := h.isGenerated t }

end Hierarchy

end ContentModels
