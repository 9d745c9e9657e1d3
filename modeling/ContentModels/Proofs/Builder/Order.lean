import ContentModels.Proofs.Builder.Generation
import ContentModels.Proofs.Resolver.Order

/-!
# The order of the inputs

The order in which a builder is given its content types does not matter, and neither do the order
and the repetitions in its catalog: it is made or refused alike, and what it writes is the same to
the letter (`Builder.generateAll_eq_of_perm`). Two writers with resolvers that are alike
(`Writer.Alike`) write every part of a file alike, from the names in a header to the models.
-/

namespace ContentModels

namespace Writer

/-- Two writers stamp the same generator on what they write, and their resolvers write alike. -/
structure Alike (w v : Writer) : Prop where
  /-- The resolvers write alike. -/
  resolver : w.resolver.Alike v.resolver
  /-- The generator is the same. -/
  generator : w.generator = v.generator

namespace Alike

variable {w v : Writer} (hwv : w.Alike v)
include hwv

/-- The types are the same. -/
theorem hierarchy : w.hierarchy.Reordered v.hierarchy := hwv.resolver.hierarchy

/-! ## Names and attributes -/

/-- The types of the framework are written alike. -/
theorem framework_eq (d : DeclaredType) : w.framework d = v.framework d :=
  hwv.resolver.symbolText_eq d

/-- Classes are written alike. -/
theorem modelClass_eq (t : ContentType) : w.modelClass t = v.modelClass t :=
  hwv.resolver.modelSymbol_eq t.className

/-- Interfaces are written alike. -/
theorem modelInterface_eq (t : ContentType) : w.modelInterface t = v.modelInterface t :=
  hwv.resolver.modelSymbol_eq t.interfaceName

/-- What headers name is written alike. -/
theorem supertypes_eq (list : List Supertype) : w.supertypes list = v.supertypes list := by
  have hsupertype : w.supertype = v.supertype := by
    funext supertype
    cases supertype with
    | framework d => exact hwv.framework_eq d
    | modelClass t => exact hwv.modelClass_eq t
    | modelInterface t => exact hwv.modelInterface_eq t
  rw [supertypes, supertypes, hsupertype]

/-- The generator is stamped alike. -/
theorem generatedCode_eq : w.generatedCode = v.generatedCode := by
  unfold generatedCode
  rw [hwv.generator]

/-- Attributes are written alike. -/
theorem aliasAttribute_eq (indent name aliasName : String) :
    w.aliasAttribute indent name aliasName = v.aliasAttribute indent name aliasName := by
  simp only [aliasAttribute, Resolver.attributeText, hwv.resolver.qualifier_eq]

/-- Type references are written alike. -/
theorem type_eq (t : TypeRef) : w.type t = v.type t := hwv.resolver.draft_eq t

/-! ## Members -/

/-- Type arguments are written alike. -/
theorem valueArgument_eq (p : Property) : w.valueArgument p = v.valueArgument p := by
  simp only [valueArgument, hwv.type_eq]

/-- Static getters are written alike. -/
theorem getter_eq (owner : ContentType) (p : Property) : w.getter owner p = v.getter owner p := by
  simp only [getter, hwv.generatedCode_eq, hwv.type_eq, hwv.modelInterface_eq, hwv.framework_eq,
    hwv.valueArgument_eq]

/-- The code of members is written alike. -/
theorem memberCode_eq (member : Member) : w.memberCode member = v.memberCode member := by
  simp only [memberCode, memberBody, hwv.generatedCode_eq, hwv.aliasAttribute_eq, hwv.type_eq,
    hwv.valueArgument_eq, hwv.modelClass_eq]

/-- Members are written alike. -/
theorem member_eq (member : Member) : w.member member = v.member member := by
  simp only [Writer.member, hwv.memberCode_eq, hwv.getter_eq]

/-- The members of interfaces are written alike. -/
theorem interfaceMember_eq (p : Property) : w.interfaceMember p = v.interfaceMember p := by
  simp only [interfaceMember, hwv.generatedCode_eq, hwv.type_eq]

/-! ## Models and files -/

/-- Interfaces are written alike. -/
theorem interfaceOf_eq (t : ContentType) : w.interfaceOf t = v.interfaceOf t := by
  simp only [interfaceOf, hwv.hierarchy.interfaceSupertypes_eq, hwv.supertypes_eq,
    funext hwv.interfaceMember_eq]

/-- The constants and the static functions of classes are written alike. -/
theorem helpers_eq (t : ContentType) : w.helpers t = v.helpers t := by
  simp only [helpers, hwv.generatedCode_eq, hwv.framework_eq, hwv.modelClass_eq]

/-- Constructors are written alike. -/
theorem constructor_eq (t : ContentType) : w.constructor t = v.constructor t := by
  simp only [constructor, hwv.framework_eq]

/-- Classes are written alike. -/
theorem classOf_eq (t : ContentType) : w.classOf t = v.classOf t := by
  simp only [classOf, hwv.aliasAttribute_eq, hwv.hierarchy.classSupertypes_eq, hwv.supertypes_eq,
    hwv.helpers_eq, hwv.constructor_eq, hwv.hierarchy.members_eq, funext hwv.member_eq]

/-- Models are written alike. -/
theorem model_eq (t : ContentType) : w.model t = v.model t := by
  rw [model, model, hwv.interfaceOf_eq, hwv.classOf_eq]

/-- Files are written alike. -/
theorem file_eq (models : List ContentType) : w.file models = v.file models := by
  simp only [file, fileStart, hwv.generator, hwv.resolver.scope, funext hwv.model_eq]

end Alike

end Writer

namespace Builder

/-- A builder can be made of a configuration without a fault and of types that can be modelled. -/
theorem exists_make_iff {config : Config} {types : List ContentType} {catalog : List DeclaredType} :
    (∃ b, make config types catalog = .ok b) ↔
      config.fault? = none ∧ Hierarchy.Acceptable config.mode ⟨types⟩ := by
  simp only [make_eq_ok_iff, Hierarchy.ofTypes_eq_ok_iff]
  constructor
  · rintro ⟨b, hconfig, h, ⟨hacceptable, -⟩, -⟩
    exact ⟨hconfig, hacceptable⟩
  · rintro ⟨hconfig, hacceptable⟩
    exact ⟨_, hconfig, _, ⟨hacceptable, rfl⟩, rfl⟩

/-- Builders of the same types, in any order, and of the same catalog write alike. -/
theorem alike_of_make {config : Config} {types types' : List ContentType}
    {catalog catalog' : List DeclaredType} (htypes : types.Perm types')
    (hcatalog : ∀ d, d ∈ catalog ↔ d ∈ catalog') {b c : Builder}
    (hb : make config types catalog = .ok b) (hc : make config types' catalog' = .ok c) :
    b.writer.Alike c.writer := by
  have hs := sound_of_make hb
  obtain ⟨-, h, hh, rfl⟩ := make_eq_ok_iff.1 hb
  obtain ⟨-, k, hk, rfl⟩ := make_eq_ok_iff.1 hc
  obtain ⟨-, rfl⟩ := Hierarchy.ofTypes_eq_ok_iff.1 hh
  obtain ⟨-, rfl⟩ := Hierarchy.ofTypes_eq_ok_iff.1 hk
  -- Notes are made type by type, so the types with their notes are the same ones too.
  have hreordered : Hierarchy.Reordered ⟨types.map (Hierarchy.noteClashes config.mode)⟩
      ⟨types'.map (Hierarchy.noteClashes config.mode)⟩ := ⟨htypes.map _, hs.keys, hs.ids⟩
  exact ⟨⟨rfl, rfl, SymbolTable.declarationsOf_perm hreordered hcatalog _, hreordered⟩, rfl⟩

/-- What a type is asked for by is its key. -/
theorem requested_congr {b c : Builder} (hbc : b.hierarchy.Reordered c.hierarchy)
    {t u : ContentType} (hkey : t.key = u.key) : b.requested t = c.requested u := by
  obtain ⟨halias, hitem⟩ := Prod.mk.inj hkey
  unfold requested Hierarchy.own?
  rw [halias, hitem, hbc.find?_eq, funext hbc.isGenerated_eq]

/-- Requests with the same keys are looked up alike. -/
theorem mapM_requested_congr {b c : Builder} (hbc : b.hierarchy.Reordered c.hierarchy)
    {requests others : List ContentType}
    (hkeys : requests.map ContentType.key = others.map ContentType.key) :
    requests.mapM b.requested = others.mapM c.requested := by
  induction requests generalizing others with
  | nil => rw [List.map_eq_nil_iff.1 hkeys.symm, List.mapM_nil, List.mapM_nil]
  | cons t requests ih =>
    obtain ⟨u, others, rfl, hkey, hrest⟩ := List.map_eq_cons_iff.1 hkeys.symm
    rw [List.mapM_cons, List.mapM_cons, requested_congr hbc hkey.symm, ih hrest.symm]

/-- Builders are made of a configuration, of content types in any order and of a catalog with the
same types, in any order and with any repetitions: they are made or refused alike. To what has been
written before, they add the same text for the same requests, and they come to the same fault. -/
theorem generateAll_eq_of_perm {config : Config} {types types' : List ContentType}
    {catalog catalog' : List DeclaredType} (htypes : types.Perm types')
    (hcatalog : ∀ d, d ∈ catalog ↔ d ∈ catalog') :
    ((∃ b, make config types catalog = .ok b) ↔ ∃ c, make config types' catalog' = .ok c) ∧
      ∀ b c, make config types catalog = .ok b → make config types' catalog' = .ok c →
        ∀ (written : String) (requests others : List ContentType),
          requests.map ContentType.key = others.map ContentType.key →
            Draft.ofString written ++ b.generateAll requests =
              Draft.ofString written ++ c.generateAll others := by
  constructor
  · rw [exists_make_iff, exists_make_iff, Hierarchy.acceptable_iff_of_perm htypes]
  · intro b c hb hc written requests others hkeys
    have halike := alike_of_make htypes hcatalog hb hc
    have hmodels := mapM_requested_congr halike.hierarchy hkeys
    unfold generateAll
    rw [hmodels]
    split
    · rfl
    · rw [halike.file_eq]

/-- A page that is composed of two mixins with classes of the same name. -/
def profileTypes : List ContentType :=
  [{ id := 1, aliasName := "search", className := "Meta", itemType := .content, usage := .mixin,
      properties := [{ aliasName := "keywords", memberName := "Keywords", type := .string }] },
    { id := 2, aliasName := "social", className := "Meta", itemType := .content, usage := .mixin,
      properties := [{ aliasName := "image", memberName := "Image", type := .string }] },
    { id := 3, aliasName := "profile", className := "Profile", itemType := .content,
      mixinAliases := ["search", "social"] }]

/-- A class that is declared where the models are, and named like those of the mixins. -/
def siteMeta : DeclaredType := ⟨⟨"Site"⟩, "Meta"⟩

/-- The page is written alike with the types in reverse and a catalog that repeats the class. -/
theorem profile_reversed :
    make siteConfig profileTypes [siteMeta] = .ok (ofSite profileTypes [siteMeta]) ∧
      ∃ c, make siteConfig profileTypes.reverse [siteMeta, siteMeta] = .ok c ∧
        Draft.ofString "// Profile\n" ++
            (ofSite profileTypes [siteMeta]).generateAll [profileTypes[2]] =
          Draft.ofString "// Profile\n" ++ c.generateAll [profileTypes[2]] := by
  have hok : make siteConfig profileTypes [siteMeta] = .ok (ofSite profileTypes [siteMeta]) :=
    make_siteConfig [siteMeta] (by decide +kernel)
  have hperm : profileTypes.Perm profileTypes.reverse := (List.reverse_perm _).symm
  have hcatalog : ∀ d, d ∈ [siteMeta] ↔ d ∈ [siteMeta, siteMeta] := by simp
  obtain ⟨hmade, hsame⟩ := @generateAll_eq_of_perm siteConfig _ _ _ _ hperm hcatalog
  obtain ⟨c, hc⟩ := hmade.1 ⟨_, hok⟩
  exact ⟨hok, c, hc, hsame _ _ hok hc _ _ _ rfl⟩

end Builder

end ContentModels
