import ContentModels.Hierarchy.Interfaces
import ContentModels.Proofs.Hierarchy.Acceptance
import Mathlib.Data.List.Basic

/-!
# Which types get models

A model is generated for a type that is not ignored, unless it is only there for other types to be
composed of and nothing refers to it. What refers to it is a placeholder somewhere in the type of an
active property (`TypeRef.Holds`), be it one of the type's own (`Hierarchy.IsReferredTo`,
`generatedTypes_exact`).

References may also be collected before anything is asked: one pass over all properties sets a flag
at each place that a placeholder leads to by an index of the aliases, and a question looks at the
flag of one place. The answers are the same (`isMarked_eq_isReferenced`).
-/

namespace ContentModels

namespace TypeRef

/-! ## Placeholders at any depth -/

/-- The placeholder stands somewhere in the type, be it in arrays or in generic arguments. -/
inductive Holds (q : Placeholder) : TypeRef → Prop
  /-- A placeholder holds itself. -/
  | model : Holds q (.model q)
  /-- An array holds what its element type holds. -/
  | array {element : TypeRef} : Holds q element → Holds q (.array element)
  /-- A named type holds what one of its arguments holds. -/
  | argument {ns : Namespace} {outer : String} {nested : List String} {args : List TypeRef}
      {t : TypeRef} : t ∈ args → Holds q t → Holds q (.named ns outer nested args)

mutual

/-- The placeholders of a type are those that stand somewhere in it. -/
theorem mem_placeholders_iff {q : Placeholder} : ∀ t : TypeRef, q ∈ t.placeholders ↔ t.Holds q
  | .named ns outer nested args => by
    rw [placeholders, mem_placeholdersOfList_iff args]
    constructor
    · rintro ⟨t, ht, hq⟩
      exact .argument ht hq
    · rintro (_ | _ | ⟨ht, hq⟩)
      exact ⟨_, ht, hq⟩
  | .model target => by
    rw [placeholders, List.mem_singleton]
    constructor
    · rintro rfl
      exact .model
    · rintro ⟨⟩
      rfl
  | .array element => by
    rw [placeholders, mem_placeholders_iff element]
    constructor
    · exact .array
    · rintro (_ | hq)
      exact hq

/-- The placeholders of several types are those that stand somewhere in one of them. -/
theorem mem_placeholdersOfList_iff {q : Placeholder} :
    ∀ ts : List TypeRef, q ∈ placeholdersOfList ts ↔ ∃ t ∈ ts, t.Holds q
  | [] => by simp [placeholdersOfList]
  | t :: ts => by
    rw [placeholdersOfList, List.mem_append, mem_placeholders_iff t, mem_placeholdersOfList_iff ts,
      List.exists_mem_cons_iff]

end

end TypeRef

/-- A placeholder fits a type by its alias, and by its item type if it gives one. -/
theorem Placeholder.fits_iff {q : Placeholder} {t : ContentType} :
    q.fits t ↔ q.aliasName = t.aliasName ∧ (q.itemType = none ∨ q.itemType = some t.itemType) := by
  simp [fits]

namespace Hierarchy

/-! ## References -/

/-- Something refers to `t`: a type that is not ignored, maybe `t` itself, has an active property
whose type holds a placeholder with the alias of `t`, and with its item type or none. -/
def IsReferredTo (h : Hierarchy) (t : ContentType) : Prop :=
  ∃ u ∈ h.types, u.ignored = false ∧ ∃ p ∈ u.properties, p.ignored = false ∧
    ∃ q : Placeholder, p.type.Holds q ∧ q.aliasName = t.aliasName ∧
      (q.itemType = none ∨ q.itemType = some t.itemType)

/-- A type of the hierarchy is referenced if a placeholder in an active property of a type that is
not ignored fits it. -/
theorem isReferenced_iff {h : Hierarchy} (hkeys : (h.types.map ContentType.key).Nodup)
    {t : ContentType} (ht : t ∈ h.types) :
    h.isReferenced t ↔ ∃ u ∈ h.types, u.ignored = false ∧
      ∃ p ∈ u.activeProperties, ∃ q ∈ p.type.placeholders, q.fits t := by
  simp [isReferenced, own?_eq_some_of_mem hkeys ht]

/-- A type of the hierarchy is referenced if something refers to it. -/
theorem isReferenced_iff_isReferredTo {h : Hierarchy} (hkeys : (h.types.map ContentType.key).Nodup)
    {t : ContentType} (ht : t ∈ h.types) : h.isReferenced t ↔ h.IsReferredTo t := by
  rw [isReferenced_iff hkeys ht, IsReferredTo]
  simp only [ContentType.mem_activeProperties_iff, TypeRef.mem_placeholders_iff,
    Placeholder.fits_iff, and_assoc]

/-- A model is generated for the types that are not ignored and, if they are only there for other
types to be composed of, that something refers to. -/
theorem mem_generatedTypes_iff {h : Hierarchy} {t : ContentType} :
    t ∈ h.generatedTypes ↔
      t ∈ h.types ∧ t.ignored = false ∧ (t.isCompositionOnly → h.isReferenced t) := by
  unfold generatedTypes isGenerated
  rw [List.mem_filter, Bool.and_eq_true, Bool.or_eq_true, Bool.not_eq_true', Bool.not_eq_true']
  cases t.isCompositionOnly <;> simp

/-! ## Marking places -/

/-- The index of the aliases: the places of the types that have the alias, in their order. -/
def places (h : Hierarchy) (aliasName : String) : List Nat :=
  h.types.findIdxs fun t => t.aliasName = aliasName

/-- The place of the hierarchy's own type of the same alias and item type as `t`. -/
def place? (h : Hierarchy) (t : ContentType) : Option Nat :=
  (h.places t.aliasName).find? fun i => h.types[i]?.any fun u => u.itemType = t.itemType

/-- The places that a placeholder leads to: those of its alias, less the ones of another item type
than it gives. -/
def placesFor (h : Hierarchy) (q : Placeholder) : List Nat :=
  (h.places q.aliasName).filter fun i =>
    h.types[i]?.any fun u => q.itemType.all fun kind => u.itemType = kind

/-- The places that active properties of types that are not ignored lead to, as they are met. -/
def placesMet (h : Hierarchy) : List Nat :=
  (h.types.filter (!·.ignored)).flatMap fun u =>
    u.activeProperties.flatMap fun p => p.type.placeholders.flatMap h.placesFor

/-- A flag for each type, set where a place has been met. -/
def marks (h : Hierarchy) : List Bool :=
  h.placesMet.foldl (fun flags i => flags.set i true) (.replicate h.types.length false)

/-- Whether the flag is set at the place of a type. -/
def isMarked (h : Hierarchy) (t : ContentType) : Bool :=
  (h.place? t).any fun i => h.marks[i]? = some true

/-- Flags that are set one after the other are those that were set before, and the new ones. -/
theorem getElem?_foldl_set {places : List Nat} {flags : List Bool} {i : Nat} :
    (places.foldl (fun flags i => flags.set i true) flags)[i]? = some true ↔
      i < flags.length ∧ i ∈ places ∨ flags[i]? = some true := by
  induction places generalizing flags with
  | nil => simp
  | cons j places ih =>
    rw [List.foldl_cons, ih, List.length_set, List.getElem?_set, List.mem_cons]
    by_cases hij : j = i
    · subst hij
      by_cases hlt : j < flags.length <;> simp [hlt]
    · simp [hij, Ne.symm hij]

/-- A place is one of an alias if a type of this alias stands there. -/
theorem mem_places_iff {h : Hierarchy} {aliasName : String} {i : Nat} :
    i ∈ h.places aliasName ↔ ∃ u, h.types[i]? = some u ∧ u.aliasName = aliasName := by
  rw [places, List.mem_findIdxs_iff_exists_getElem_pos]
  simp only [decide_eq_true_eq, List.getElem?_eq_some_iff]
  constructor
  · rintro ⟨hlt, halias⟩
    exact ⟨_, ⟨hlt, rfl⟩, halias⟩
  · rintro ⟨u, ⟨hlt, rfl⟩, halias⟩
    exact ⟨hlt, halias⟩

/-- A placeholder leads to the places of the types that it fits. -/
theorem mem_placesFor_iff {h : Hierarchy} {q : Placeholder} {i : Nat} :
    i ∈ h.placesFor q ↔ ∃ u, h.types[i]? = some u ∧ q.fits u := by
  rw [placesFor, List.mem_filter, mem_places_iff]
  have hkind : ∀ u : ContentType, (q.itemType.all fun kind => u.itemType = kind) = true ↔
      q.itemType = none ∨ q.itemType = some u.itemType := fun u => by
    cases q.itemType <;> simp [eq_comm]
  cases hu : h.types[i]? with
  | none => simp
  | some u => simp [Placeholder.fits_iff, hkind, @eq_comm _ u.aliasName]

/-- The places that are met are those of the types that a placeholder in an active property of a
type that is not ignored fits. -/
theorem mem_placesMet_iff {h : Hierarchy} {i : Nat} :
    i ∈ h.placesMet ↔ ∃ t, h.types[i]? = some t ∧ ∃ u ∈ h.types, u.ignored = false ∧
      ∃ p ∈ u.activeProperties, ∃ q ∈ p.type.placeholders, q.fits t := by
  simp only [placesMet, List.mem_flatMap, List.mem_filter, mem_placesFor_iff, Bool.not_eq_true']
  constructor
  · rintro ⟨u, ⟨hu, hactive⟩, p, hp, q, hq, t, ht, hfits⟩
    exact ⟨t, ht, u, hu, hactive, p, hp, q, hq, hfits⟩
  · rintro ⟨t, ht, u, hu, hactive, p, hp, q, hq, hfits⟩
    exact ⟨u, ⟨hu, hactive⟩, p, hp, q, hq, t, ht, hfits⟩

/-- At the place of a type stands one of the same alias and item type. -/
theorem exists_of_place? {h : Hierarchy} {t : ContentType} {i : Nat} (hi : h.place? t = some i) :
    ∃ u, h.types[i]? = some u ∧ u.aliasName = t.aliasName ∧ u.itemType = t.itemType := by
  obtain ⟨u, hu, halias⟩ := mem_places_iff.1 (List.mem_of_find?_eq_some hi)
  have hkind := List.find?_some hi
  rw [hu] at hkind
  exact ⟨u, hu, halias, by simpa using hkind⟩

/-- A type has a place if the hierarchy has a type of its own for it. -/
theorem isSome_place? {h : Hierarchy} {t : ContentType} :
    (h.place? t).isSome = (h.own? t).isSome := by
  rw [Bool.eq_iff_iff, place?, own?, Hierarchy.find?, List.find?_isSome, List.find?_isSome]
  constructor
  · rintro ⟨i, hi, hkind⟩
    obtain ⟨u, hu, halias⟩ := mem_places_iff.1 hi
    rw [hu] at hkind
    exact ⟨u, mem_withAlias_iff.2 ⟨List.mem_of_getElem? hu, halias⟩, by simpa using hkind⟩
  · rintro ⟨u, hu, hkind⟩
    obtain ⟨hmem, halias⟩ := mem_withAlias_iff.1 hu
    obtain ⟨i, hi⟩ := List.mem_iff_getElem?.1 hmem
    exact ⟨i, mem_places_iff.2 ⟨u, hi, halias⟩, by simpa [hi] using hkind⟩

/-- The flags tell of every type, be it one of the hierarchy or not, what a search at the time of
the question tells. -/
theorem isMarked_eq_isReferenced (h : Hierarchy) (t : ContentType) :
    h.isMarked t = h.isReferenced t := by
  unfold isMarked isReferenced
  rw [← isSome_place?]
  cases hplace : h.place? t with
  | none => rfl
  | some i =>
    obtain ⟨u, hu, halias, hkind⟩ := exists_of_place? hplace
    have hfits : ∀ q : Placeholder, q.fits u = q.fits t := fun q => by
      rw [Placeholder.fits, Placeholder.fits, halias, hkind]
    have hmark : h.marks[i]? = some true ↔ i ∈ h.placesMet := by
      have hlt : i < h.types.length := (List.getElem?_eq_some_iff.1 hu).1
      rw [marks, getElem?_foldl_set]
      simp [hlt]
    rw [Bool.eq_iff_iff]
    simp [hmark, mem_placesMet_iff, hu, hfits]

/-! ## Selection -/

/-- Of an accepted hierarchy, models are generated in the order of declaration for exactly the types
that are not ignored and that either are there for more than composition or are referred to. Flags
that are set in one pass over the properties select the same types. -/
theorem generatedTypes_exact {mode : Mode} {types : List ContentType} {h : Hierarchy}
    (hok : ofTypes mode types = .ok h) :
    h.generatedTypes.Sublist h.types ∧ h.generatedTypes.Nodup ∧
      (∀ t, t ∈ h.generatedTypes ↔
        t ∈ h.types ∧ t.ignored = false ∧ (t.isCompositionOnly = false ∨ h.IsReferredTo t)) ∧
      h.generatedTypes =
        h.types.filter fun t => !t.ignored && (!t.isCompositionOnly || h.isMarked t) := by
  have hs := sound_of_ofTypes hok
  have hsub : h.generatedTypes.Sublist h.types := List.filter_sublist
  refine ⟨hsub, hsub.nodup hs.keys.of_map, fun t => ?_, ?_⟩
  · rw [mem_generatedTypes_iff]
    refine and_congr_right fun ht => and_congr_right fun _ => ?_
    rw [isReferenced_iff_isReferredTo hs.keys ht]
    cases t.isCompositionOnly <;> simp
  · simp only [isMarked_eq_isReferenced]
    rfl

/-- A page that holds cards by their names, a menu that holds menus, and a banner that an ignored
type alone holds. Cards, menus and banners are only there for other types to be composed of. -/
def menuTypes : List ContentType :=
  [{ id := 1, aliasName := "page", className := "Page", itemType := .content,
     properties := [{ aliasName := "cards", memberName := "Cards",
                      type := .named ⟨"System.Collections.Generic"⟩ "Dictionary" []
                        [.string, .array (.model ⟨"card", some .element⟩)] }] },
    { id := 2, aliasName := "card", className := "Card", itemType := .element,
      usage := .compositionOnly },
    { id := 3, aliasName := "menu", className := "Menu", itemType := .content,
      usage := .compositionOnly,
      properties := [{ aliasName := "entries", memberName := "Entries",
                       type := .enumerableOf (.model ⟨"menu", none⟩) }] },
    { id := 4, aliasName := "banner", className := "Banner", itemType := .content,
      usage := .compositionOnly },
    { id := 5, aliasName := "legacy", className := "Legacy", itemType := .content, ignored := true,
      properties := [{ aliasName := "banner", memberName := "Banner",
                       type := .model ⟨"banner", none⟩ }] }]

/-- The card is referred to from an array inside of generic arguments, and the menu by itself; the
banner gets no model. -/
theorem menu_selected :
    ofTypes .sourceCode menuTypes = .ok ⟨menuTypes⟩ ∧
      menuTypes[1] ∈ (Hierarchy.mk menuTypes).generatedTypes ∧
      menuTypes[2] ∈ (Hierarchy.mk menuTypes).generatedTypes ∧
      (Hierarchy.mk menuTypes).generatedTypes = menuTypes.take 3 := by
  have hok : ofTypes .sourceCode menuTypes = .ok ⟨menuTypes⟩ :=
    ofTypes_sourceCode_eq_ok (by decide +kernel)
  obtain ⟨-, -, hiff, hmarked⟩ := generatedTypes_exact hok
  have hcard : (Hierarchy.mk menuTypes).IsReferredTo menuTypes[1] :=
    ⟨menuTypes[0], by decide +kernel, rfl, _, List.mem_singleton_self _, rfl, _,
      .argument (List.mem_cons_of_mem _ (List.mem_singleton_self _)) (.array .model), rfl, .inr rfl⟩
  have hmenu : (Hierarchy.mk menuTypes).IsReferredTo menuTypes[2] :=
    ⟨menuTypes[2], by decide +kernel, rfl, _, List.mem_singleton_self _, rfl, _,
      .argument (List.mem_singleton_self _) .model, rfl, .inl rfl⟩
  refine ⟨hok, (hiff _).2 ⟨by decide +kernel, rfl, .inr hcard⟩,
    (hiff _).2 ⟨by decide +kernel, rfl, .inr hmenu⟩, ?_⟩
  rw [hmarked]
  decide +kernel

end Hierarchy

end ContentModels
