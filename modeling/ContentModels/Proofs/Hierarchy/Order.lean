import ContentModels.Proofs.Hierarchy.Acceptance
import ContentModels.Source.Outline

/-!
# The order of the types

Content types that come in another order are accepted alike (`acceptable_iff_of_perm`), and what an
accepted hierarchy says of a type is the same in any order (`Hierarchy.Reordered`). Types are found
by what tells them apart, and walks start at one type and follow its links, so that the order in
which the types are listed decides about neither. Of types with the same class name, the order is
the one in which a walk meets them.
-/

namespace ContentModels

/-- A list with one element only is the same in any order. -/
theorem eq_singleton_iff_of_perm {α : Type} {l l' : List α} (h : l.Perm l') {x : α} :
    l = [x] ↔ l' = [x] := by
  constructor
  · rintro rfl
    exact (List.singleton_perm.1 h).symm
  · rintro rfl
    exact List.perm_singleton.1 h

/-- Whether there is one element only, and which, does not depend on the order. -/
theorem sole?_eq_of_perm {α : Type} {l l' : List α} (h : l.Perm l') : sole? l = sole? l' :=
  Option.ext fun x => by
    rw [sole?_eq_some_iff, sole?_eq_some_iff, eq_singleton_iff_of_perm h]

namespace Hierarchy

/-! ## What is acceptable -/

section Relations

variable {h k : Hierarchy} (hmem : ∀ t, t ∈ h.types ↔ t ∈ k.types)
include hmem

/-- Aliases mean the same among the same types. -/
theorem means_congr : h.Means = k.Means := by
  funext t aliasName u
  unfold Means
  simp only [hmem]

/-- Bases are the same among the same types. -/
theorem hasBase_congr : h.HasBase = k.HasBase := by
  funext t b
  unfold HasBase
  simp only [means_congr hmem, hmem]

/-- Mixins are the same among the same types. -/
theorem hasMixin_congr : h.HasMixin = k.HasMixin := by
  funext t m
  unfold HasMixin
  simp only [means_congr hmem]

/-- Supertypes are the same among the same types. -/
theorem hasSupertype_congr : h.HasSupertype = k.HasSupertype := by
  funext t u
  unfold HasSupertype
  rw [hasBase_congr hmem, hasMixin_congr hmem]

/-- Links that are sound are so among the same types. -/
theorem Linked.congr (hlinked : h.Linked) : k.Linked where
  bases t ht hnames := hasBase_congr hmem ▸ hlinked.bases t ((hmem t).2 ht) hnames
  mixins t ht aliasName ha := means_congr hmem ▸ hlinked.mixins t ((hmem t).2 ht) aliasName ha
  isMixin t ht m hm := hlinked.isMixin t ((hmem t).2 ht) m (hasMixin_congr hmem ▸ hm)
  acyclic t ht htt := hlinked.acyclic t ((hmem t).2 ht) (hasSupertype_congr hmem ▸ htt)
  elements t ht helement u hu :=
    hlinked.elements t ((hmem t).2 ht) helement u (hasSupertype_congr hmem ▸ hu)

end Relations

/-- Types that can be modelled can be so in any order. -/
theorem Acceptable.perm {mode : Mode} {types types' : List ContentType} (hperm : types.Perm types')
    (hacceptable : Acceptable mode ⟨types⟩) : Acceptable mode ⟨types'⟩ where
  keys := (hperm.map _).nodup_iff.1 hacceptable.keys
  ids := (hperm.map _).nodup_iff.1 hacceptable.ids
  memberNames t ht := hacceptable.memberNames t (hperm.mem_iff.2 ht)
  clashes hmode t ht := hacceptable.clashes hmode t (hperm.mem_iff.2 ht)
  linked := hacceptable.linked.congr fun _ => hperm.mem_iff

/-- Whether types can be modelled does not depend on their order. -/
theorem acceptable_iff_of_perm {mode : Mode} {types types' : List ContentType}
    (hperm : types.Perm types') : Acceptable mode ⟨types⟩ ↔ Acceptable mode ⟨types'⟩ :=
  ⟨.perm hperm, .perm hperm.symm⟩

/-! ## What an accepted hierarchy says -/

/-- Two hierarchies hold the same types, which keys and identities tell apart, in any order. -/
structure Reordered (h k : Hierarchy) : Prop where
  /-- The types are the same. -/
  perm : h.types.Perm k.types
  /-- No two types share alias and item type. -/
  keys : (h.types.map ContentType.key).Nodup
  /-- No two types share their identity. -/
  ids : (h.types.map ContentType.id).Nodup

namespace Reordered

variable {h k : Hierarchy} (hhk : h.Reordered k)
include hhk

/-- The type of an alias and an item type is the same. -/
theorem find?_eq (aliasName : String) (itemType : ItemType) :
    h.find? aliasName itemType = k.find? aliasName itemType :=
  Option.ext fun u => by
    rw [find?_eq_some_iff hhk.keys, find?_eq_some_iff ((hhk.perm.map _).nodup_iff.1 hhk.keys),
      hhk.perm.mem_iff]

/-- The type of an identity is the same. -/
theorem withId?_eq (id : Int) : h.withId? id = k.withId? id :=
  Option.ext fun u => by
    rw [withId?_eq_some_iff hhk.ids, withId?_eq_some_iff ((hhk.perm.map _).nodup_iff.1 hhk.ids),
      hhk.perm.mem_iff]

/-- The hierarchy's own type is the same. -/
theorem own?_eq (t : ContentType) : h.own? t = k.own? t := hhk.find?_eq _ _

/-- The types of an alias are the same. -/
theorem withAlias_perm (aliasName : String) :
    (h.withAlias aliasName).Perm (k.withAlias aliasName) :=
  hhk.perm.filter _

/-- What an alias means is the same. -/
theorem sole?_meant_eq (itemType : ItemType) (aliasName : String) :
    sole? (h.meant itemType aliasName) = sole? (k.meant itemType aliasName) := by
  unfold meant
  rw [hhk.find?_eq]
  split
  · rfl
  · exact sole?_eq_of_perm (hhk.withAlias_perm aliasName)

/-- The base is the same. -/
theorem baseOf?_eq (t : ContentType) : h.baseOf? t = k.baseOf? t := by
  unfold baseOf?
  simp only [hhk.sole?_meant_eq, hhk.withId?_eq]

/-- The mixins are the same, in the same order. -/
theorem mixinsOf_eq (t : ContentType) : h.mixinsOf t = k.mixinsOf t := by
  simp only [mixinsOf, hhk.sole?_meant_eq]

/-- What a type reaches is the same, and is met in the same order. -/
theorem closure_eq (t : ContentType) : h.closure t = k.closure t :=
  Digraph.walk_congr (fun u => by simp only [graph, supertypesOf, hhk.baseOf?_eq, hhk.mixinsOf_eq])
    hhk.perm [t]

/-- What a type inherits is the same. -/
theorem inheritedBy_eq (t : ContentType) : h.inheritedBy t = k.inheritedBy t := by
  simp only [inheritedBy, hhk.baseOf?_eq, hhk.closure_eq]

/-- The mixins that a type declares are the same. -/
theorem declaredBy_eq (t : ContentType) : h.declaredBy t = k.declaredBy t := by
  simp only [declaredBy, hhk.inheritedBy_eq, hhk.mixinsOf_eq]

/-- The mixins that a type implements are the same, and are met in the same order. -/
theorem implementedBy_eq (t : ContentType) : h.implementedBy t = k.implementedBy t := by
  simp only [implementedBy, hhk.inheritedBy_eq, hhk.declaredBy_eq, hhk.closure_eq]

/-- The same types are referenced. -/
theorem isReferenced_eq (t : ContentType) : h.isReferenced t = k.isReferenced t := by
  unfold isReferenced
  rw [hhk.own?_eq, hhk.perm.any_eq]

/-- Models are generated for the same types. -/
theorem isGenerated_eq (t : ContentType) : h.isGenerated t = k.isGenerated t := by
  unfold isGenerated
  rw [hhk.isReferenced_eq]

/-- The generated types are the same. -/
theorem generatedTypes_perm : h.generatedTypes.Perm k.generatedTypes := by
  unfold generatedTypes
  rw [funext hhk.isGenerated_eq]
  exact hhk.perm.filter _

/-- The mixins whose interfaces a type declares are the same, in the same order. -/
theorem lifted_eq (t : ContentType) : h.lifted t = k.lifted t := by
  have hwalk : (h.liftingGraph t).walk h.types (h.declaredBy t) =
      (k.liftingGraph t).walk k.types (k.declaredBy t) := by
    rw [hhk.declaredBy_eq]
    exact Digraph.walk_congr (fun m => by
      simp only [liftingGraph, hhk.inheritedBy_eq, hhk.isGenerated_eq, hhk.mixinsOf_eq]) hhk.perm _
  simp only [lifted, hwalk, hhk.inheritedBy_eq, hhk.isGenerated_eq]

/-- The header of a class names the same. -/
theorem classSupertypes_eq (t : ContentType) : h.classSupertypes t = k.classSupertypes t := by
  simp only [classSupertypes, hhk.baseOf?_eq, hhk.lifted_eq]

/-- The header of an interface names the same. -/
theorem interfaceSupertypes_eq (t : ContentType) :
    h.interfaceSupertypes t = k.interfaceSupertypes t := by
  simp only [interfaceSupertypes, hhk.baseOf?_eq, hhk.lifted_eq, hhk.isGenerated_eq]

/-- The members of a class are the same, in the same order. -/
theorem members_eq (t : ContentType) : h.members t = k.members t := by
  simp only [members, implementedMembers, hhk.implementedBy_eq, hhk.isGenerated_eq]

end Reordered

end Hierarchy

end ContentModels
