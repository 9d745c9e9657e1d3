import ContentModels.Builder
import ContentModels.Proofs.Resolver.Placeholders
import ContentModels.Proofs.Sorting
import ContentModels.Proofs.Source.Members

/-!
# When models are generated

A model is written with the properties of its type and of the mixins that the type implements
(`Hierarchy.writtenProperties`), some of them in several places. It is written in full exactly if
every placeholder in their types designates a model, and the first that does not decides the fault
(`Builder.generate_written_iff`).

Which properties these are, and in which order, is told by the properties of the types alone; that
the members of a class are for the same ones is `Hierarchy.map_property_members`.
-/

namespace ContentModels

namespace ContentType

/-- The properties of a type that are not ignored, in the order of their member names. -/
def propertiesByName (t : ContentType) : List Property :=
  (t.properties.filter fun p => !p.ignored).insertionSort fun p q => p.memberName ≤ q.memberName

/-- A class and an interface are written with these properties, in this order. -/
theorem sortedProperties_eq (t : ContentType) : t.sortedProperties = t.propertiesByName :=
  sortBy_eq_insertionSort Property.memberName t.activeProperties

/-- They are the active ones. -/
theorem mem_propertiesByName_iff {t : ContentType} {p : Property} :
    p ∈ t.propertiesByName ↔ p ∈ t.activeProperties := by
  rw [← sortedProperties_eq, mem_sortedProperties_iff]

end ContentType

namespace Hierarchy

/-! ## What is written -/

/-- The properties that the model of a type is written with: its own, in the order of their member
names, and those of each mixin that it implements, the mixins in the order of their class names. -/
def writtenProperties (h : Hierarchy) (t : ContentType) : List Property :=
  t.propertiesByName ++
    ((h.implementedBy t).insertionSort fun m n => m.className ≤ n.className).flatMap
      ContentType.propertiesByName

/-- The placeholders in the types of these properties, from left to right in each type. -/
def writtenPlaceholders (h : Hierarchy) (t : ContentType) : List Placeholder :=
  (h.writtenProperties t).flatMap fun p => p.type.placeholders

/-- Each of these properties has a member in the class, in the same order. -/
theorem map_property_members (h : Hierarchy) (t : ContentType) :
    (h.members t).map Member.property = h.writtenProperties t := by
  simp [members, ContentType.ownMembers, implementedMembers, writtenProperties, List.map_flatMap,
    Function.comp_def, ContentType.sortedProperties_eq, sortBy_eq_insertionSort]

/-- A model is written with the placeholders in the active properties of its type and of the mixins
that the type implements. -/
theorem mem_writtenPlaceholders_iff {h : Hierarchy} {t : ContentType} {q : Placeholder} :
    q ∈ h.writtenPlaceholders t ↔
      ∃ u, (u = t ∨ u ∈ h.implementedBy t) ∧ ∃ p ∈ u.activeProperties, q ∈ p.type.placeholders := by
  simp only [writtenPlaceholders, writtenProperties, List.mem_flatMap, List.mem_append,
    ContentType.mem_propertiesByName_iff, List.mem_insertionSort]
  constructor
  · rintro ⟨p, hp | ⟨u, hu, hp⟩, hq⟩
    · exact ⟨t, .inl rfl, p, hp, hq⟩
    · exact ⟨u, .inr hu, p, hp, hq⟩
  · rintro ⟨u, rfl | hu, p, hp, hq⟩
    · exact ⟨p, .inl hp, hq⟩
    · exact ⟨p, .inr ⟨u, hu, hp⟩, hq⟩

/-! ## What is designated and has no model -/

/-- No model is generated for the type, though it is not ignored: it is only there for others to be
composed of, and no active property of a type that is not ignored refers to it. -/
def Stranded (h : Hierarchy) (t : ContentType) : Prop :=
  t ∈ h.types ∧ t.ignored = false ∧ t.isCompositionOnly ∧
    ∀ u ∈ h.types, u.ignored = false → ∀ p ∈ u.activeProperties, ∀ q ∈ p.type.placeholders,
      ¬ q.fits t

/-- The type `m` implements an ignored mixin whose active properties refer to the stranded type `t`,
by the placeholder `q`. -/
def Strands (h : Hierarchy) (m : ContentType) (q : Placeholder) (t : ContentType) : Prop :=
  h.Designates q t ∧ h.Stranded t ∧
    ∃ mixin ∈ h.implementedBy m, mixin.ignored ∧
      ∃ p ∈ mixin.activeProperties, q ∈ p.type.placeholders

/-- Of the types that are not ignored, the stranded ones are those without a model. -/
theorem stranded_iff {h : Hierarchy} (hkeys : (h.types.map ContentType.key).Nodup)
    {t : ContentType} (ht : t ∈ h.types) (hactive : t.ignored = false) :
    h.Stranded t ↔ t ∉ h.generatedTypes := by
  simp [Stranded, mem_generatedTypes_iff, isReferenced_iff hkeys ht, ht, hactive]

/-- What a model is written with and is stranded, the type refers to by an ignored mixin. -/
theorem strands_iff {h : Hierarchy} {m : ContentType} (hm : m ∈ h.generatedTypes)
    {q : Placeholder} {t : ContentType} :
    h.Strands m q t ↔ q ∈ h.writtenPlaceholders m ∧ h.Designates q t ∧ h.Stranded t := by
  rw [mem_writtenPlaceholders_iff]
  constructor
  · rintro ⟨hq, ht, mixin, hmixin, -, p, hp, hmem⟩
    exact ⟨⟨mixin, .inr hmixin, p, hp, hmem⟩, hq, ht⟩
  · rintro ⟨⟨u, hu, p, hp, hmem⟩, hq, ht⟩
    obtain ⟨htypes, hactive, -⟩ := mem_generatedTypes_iff.1 hm
    -- Of the types that are not ignored, no property refers to a stranded one.
    have hignored : u ∈ h.types → u.ignored = true := fun hu => by
      by_contra hne
      exact ht.2.2.2 u hu (Bool.eq_false_iff.2 hne) p hp q hmem hq.fits
    rcases hu with rfl | hu
    · rw [hignored htypes] at hactive
      cases hactive
    · exact ⟨hq, ht, u, hu, hignored (mem_of_mem_implementedBy hu), p, hp, hmem⟩

end Hierarchy

namespace Writer

/-! ## The faults of models and files -/

/-- Of the types of several properties, the first placeholder in them that cannot be written decides
the fault. -/
theorem findSome?_fault_type (w : Writer) (properties : List Property) :
    (properties.findSome? fun p => (w.type p.type).fault) =
      (properties.flatMap fun p => p.type.placeholders).findSome?
        w.resolver.placeholderFault? := by
  induction properties with
  | nil => rfl
  | cons p properties ih =>
    rw [List.flatMap_cons, List.findSome?_append, ← ih, ← Resolver.fault_draft,
      List.findSome?_cons, type]
    cases (w.resolver.draft p.type).fault <;> rfl

/-- The first placeholder of a model that cannot be written decides the fault. -/
theorem fault_model (w : Writer) (t : ContentType) :
    (w.model t).fault =
      (w.hierarchy.writtenPlaceholders t).findSome? w.resolver.placeholderFault? := by
  have hclass : (w.classOf t).fault =
      (w.hierarchy.writtenProperties t).findSome? fun p => (w.type p.type).fault := by
    rw [fault_classOf, ← Hierarchy.map_property_members, List.findSome?_map]
    rfl
  have hown : (t.sortedProperties.findSome? fun p => (w.type p.type).fault).or
      (w.classOf t).fault = (w.classOf t).fault := by
    rw [hclass, Hierarchy.writtenProperties, List.findSome?_append,
      ContentType.sortedProperties_eq, ← Option.or_assoc, Option.or_self]
  rw [Hierarchy.writtenPlaceholders, ← findSome?_fault_type, ← hclass, model, Draft.fault_append]
  -- The interface of a mixin comes to no fault that its class does not come to.
  split
  · rw [fault_interfaceOf, hown]
  · rfl

/-- The first model of a file that cannot be written decides the fault. -/
theorem fault_file (w : Writer) (models : List ContentType) :
    (w.file models).fault = models.findSome? fun t => (w.model t).fault := by
  simp [file, List.findSome?_map, Function.comp_def]

end Writer

namespace Builder

/-! ## What a builder generates -/

/-- A builder is made of a configuration without a fault and of types that are accepted. -/
theorem make_eq_ok_iff {config : Config} {types : List ContentType} {catalog : List DeclaredType}
    {b : Builder} :
    make config types catalog = .ok b ↔
      config.fault? = none ∧ ∃ h, Hierarchy.ofTypes config.mode types = .ok h ∧
        b = ⟨config, h, .build catalog h config.modelsNamespace⟩ := by
  unfold make
  cases config.fault? with
  | some fault => simp
  | none =>
    cases Hierarchy.ofTypes config.mode types with
    | error fault => simp
    | ok h => simp [eq_comm (a := b)]

/-- The hierarchy of a builder is sound. -/
theorem sound_of_make {config : Config} {types : List ContentType} {catalog : List DeclaredType}
    {b : Builder} (hmake : make config types catalog = .ok b) : b.hierarchy.Sound := by
  obtain ⟨-, h, hok, rfl⟩ := make_eq_ok_iff.1 hmake
  exact Hierarchy.sound_of_ofTypes hok

/-- Asked for a type by its key, a builder takes its own type if a model is generated for it. -/
theorem requested_eq {b : Builder} (hs : b.hierarchy.Sound) {m u : ContentType}
    (hm : m ∈ b.generatedTypes) (hkey : u.key = m.key) : b.requested u = .ok m := by
  obtain ⟨hmem, hgen⟩ := List.mem_filter.1 hm
  obtain ⟨halias, hitem⟩ := Prod.mk.inj hkey
  have hown : b.hierarchy.own? u = some m :=
    (Hierarchy.find?_eq_some_iff hs.keys).2 ⟨hmem, halias.symm, hitem.symm⟩
  rw [requested, hown, Option.filter_some, if_pos hgen]

/-- Of a generated model, the first placeholder that cannot be written decides the fault. -/
theorem fault_generate {b : Builder} (hs : b.hierarchy.Sound) {m u : ContentType}
    (hm : m ∈ b.generatedTypes) (hkey : u.key = m.key) :
    (b.generate u).fault =
      (b.hierarchy.writtenPlaceholders m).findSome? b.resolver.placeholderFault? := by
  have hmodels : [u].mapM b.requested = .ok [m] := by
    rw [List.mapM_cons, requested_eq hs hm hkey, List.mapM_nil]
    rfl
  rw [generate, generateAll, hmodels]
  exact (b.writer.fault_file [m]).trans
    ((List.findSome?_singleton ..).trans (b.writer.fault_model m))

/-- Asked for a generated type, a builder writes the model in full exactly if each placeholder that
the model is written with designates a model, and otherwise comes to the fault of the first that
does not. So it does for a type reference and the placeholders in it. -/
theorem generate_written_iff {config : Config} {types : List ContentType}
    {catalog : List DeclaredType} {b : Builder} (hmake : make config types catalog = .ok b) :
    (∀ m ∈ b.generatedTypes, ∀ u : ContentType, u.key = m.key →
      ((∃ text, (b.generate u).toExcept = .ok text) ↔
        ∀ q ∈ b.hierarchy.writtenPlaceholders m, b.hierarchy.DesignatesModel q) ∧
      ∀ fault, (b.generate u).toExcept = .error fault ↔
        b.hierarchy.FirstFault (b.hierarchy.writtenPlaceholders m) fault) ∧
    ∀ t : TypeRef,
      ((∃ text, (b.type t).toExcept = .ok text) ↔
        ∀ q ∈ t.placeholders, b.hierarchy.DesignatesModel q) ∧
      ∀ fault, (b.type t).toExcept = .error fault ↔
        b.hierarchy.FirstFault t.placeholders fault := by
  have hs := sound_of_make hmake
  refine ⟨fun m hm u hkey => ?_, fun t => ?_⟩
  · exact Resolver.written_iff (r := b.resolver) hs.keys (fault_generate hs hm hkey)
  · exact Resolver.written_iff (r := b.resolver) hs.keys (b.resolver.fault_draft t)

/-- The configuration of models in a namespace without imports. -/
def siteConfig : Config := { modelsNamespace := ⟨"Site"⟩, imports := [] }

/-- The builder of the models of types in that namespace, beside a catalog. -/
def ofSite (types : List ContentType) (catalog : List DeclaredType) : Builder :=
  ⟨siteConfig, ⟨types⟩, .build catalog ⟨types⟩ ⟨"Site"⟩⟩

/-- That builder can be made if the types have no fault. -/
theorem make_siteConfig {types : List ContentType} (catalog : List DeclaredType)
    (h : Hierarchy.fault? .sourceCode types = none) :
    make siteConfig types catalog = .ok (ofSite types catalog) :=
  make_eq_ok_iff.2 ⟨by decide +kernel, _, Hierarchy.ofTypes_sourceCode_eq_ok h, rfl⟩

/-- A page that refers to a video, which is no type, to a card of any item type and to one of its
own, and by an ignored property to an archive, which is no type either. Their member names come in
another order than the properties do. -/
def listingTypes : List ContentType :=
  [{ id := 1, aliasName := "card", className := "Card", itemType := .content },
    { id := 2, aliasName := "card", className := "CardBlock", itemType := .element },
    { id := 3, aliasName := "page", className := "Page", itemType := .content,
      properties :=
        [{ aliasName := "video", memberName := "Video", type := .model ⟨"video", none⟩ },
          { aliasName := "teasers", memberName := "Teasers",
            type := .enumerableOf (.model ⟨"card", none⟩) },
          { aliasName := "archive", memberName := "Archive", type := .model ⟨"archive", none⟩,
            ignored := true },
          { aliasName := "cover", memberName := "Cover",
            type := .model ⟨"card", some .content⟩ }] }]

/-- The model of the page comes to the fault of its teasers, which fit two types: the cover is
written before them, the video would be behind them, and the archive is not looked at. -/
theorem listing_fault :
    make siteConfig listingTypes [] = .ok (ofSite listingTypes []) ∧
      (ofSite listingTypes []).hierarchy.writtenPlaceholders listingTypes[2] =
        [⟨"card", some .content⟩, ⟨"card", none⟩, ⟨"video", none⟩] ∧
      ((ofSite listingTypes []).generate listingTypes[2]).toExcept =
        .error (.ambiguousModel "\x7bcard\x7d") := by
  have hok : make siteConfig listingTypes [] = .ok (ofSite listingTypes []) :=
    make_siteConfig [] (by decide +kernel)
  have hpage : listingTypes[2] ∈ (ofSite listingTypes []).generatedTypes := by decide +kernel
  have hcard : listingTypes[0] ∈ (ofSite listingTypes []).generatedTypes := by decide +kernel
  have hwritten : (ofSite listingTypes []).hierarchy.writtenPlaceholders listingTypes[2] =
      [⟨"card", some .content⟩, ⟨"card", none⟩, ⟨"video", none⟩] := by decide +kernel
  refine ⟨hok, hwritten, (((generate_written_iff hok).1 _ hpage _ rfl).2 _).2
    ⟨[⟨"card", some .content⟩], ⟨"card", none⟩, [⟨"video", none⟩], hwritten, ?_, ?_,
      .inl ⟨?_, rfl⟩⟩⟩
  · exact List.forall_mem_singleton.2 ⟨_, hcard, by decide +kernel, rfl, rfl⟩
  · rintro ⟨t, -, -, -, honly⟩
    have hone := honly listingTypes[0] (by decide +kernel) rfl
    have htwo := honly listingTypes[1] (by decide +kernel) rfl
    exact absurd (hone.trans htwo.symm) (by decide +kernel)
  · exact ⟨rfl, listingTypes[0], by decide +kernel, listingTypes[1], by decide +kernel, rfl, rfl,
      by decide +kernel⟩

/-- Let each placeholder that a generated model is written with designate a type that is not
ignored. The model is written in full exactly if its type refers to no stranded type by an ignored
mixin, and otherwise the fault names such a placeholder. -/
theorem generate_iff_not_strands {config : Config} {types : List ContentType}
    {catalog : List DeclaredType} {b : Builder} (hmake : make config types catalog = .ok b)
    {m u : ContentType} (hm : m ∈ b.generatedTypes) (hkey : u.key = m.key)
    (hdesignated : ∀ q ∈ b.hierarchy.writtenPlaceholders m,
      ∃ t, b.hierarchy.Designates q t ∧ t.ignored = false) :
    ((∃ text, (b.generate u).toExcept = .ok text) ↔ ∀ q t, ¬ b.hierarchy.Strands m q t) ∧
      ∀ fault, (b.generate u).toExcept = .error fault →
        ∃ q t, b.hierarchy.Strands m q t ∧ fault = .unknownModel q.text := by
  have hs := sound_of_make hmake
  have houtcome := Resolver.written_iff (r := b.resolver) hs.keys (fault_generate hs hm hkey)
  -- A placeholder that designates no model designates a stranded type.
  have hstranded : ∀ q ∈ b.hierarchy.writtenPlaceholders m, ¬ b.hierarchy.DesignatesModel q →
      ∃ t, b.hierarchy.Strands m q t := by
    intro q hq hnone
    obtain ⟨t, ht, hactive⟩ := hdesignated q hq
    refine ⟨t, (Hierarchy.strands_iff hm).2 ⟨hq, ht, ?_⟩⟩
    exact (Hierarchy.stranded_iff hs.keys ht.1 hactive).2 fun hgen => hnone ⟨t, hgen, ht⟩
  refine ⟨houtcome.1.trans ⟨fun hall q t hstrands => ?_, fun hnone q hq => ?_⟩, fun fault hf => ?_⟩
  · obtain ⟨hq, ht, hstrand⟩ := (Hierarchy.strands_iff hm).1 hstrands
    obtain ⟨v, hv, hqv⟩ := hall q hq
    obtain rfl : t = v := ht.unique hs.keys hqv
    exact (Hierarchy.stranded_iff hs.keys ht.1 hstrand.2.1).1 hstrand hv
  · by_contra hnot
    obtain ⟨t, ht⟩ := hstranded q hq hnot
    exact hnone q t ht
  · obtain ⟨before, q, after, hsplit, -, hnot, hwhy⟩ := (houtcome.2 fault).1 hf
    have hq : q ∈ b.hierarchy.writtenPlaceholders m := by simp [hsplit]
    obtain ⟨t, ht⟩ := hstranded q hq hnot
    refine ⟨q, t, ht, ?_⟩
    rcases hwhy with ⟨hconfuses, -⟩ | ⟨-, rfl⟩
    · exact absurd hconfuses ht.1.not_confuses
    · rfl

/-- A card, which is only there for other types to be composed of. -/
def card : ContentType :=
  { id := 1, aliasName := "card", className := "Card", itemType := .content,
    usage := .compositionOnly }

/-- A promotion that other types may be composed of, with a card as its teaser. -/
def promo (ignored : Bool) : ContentType :=
  { id := 2, aliasName := "promo", className := "Promo", itemType := .content, usage := .mixin,
    ignored,
    properties :=
      [{ aliasName := "teaser", memberName := "Teaser", type := .model ⟨"card", none⟩ }] }

/-- A page that is composed of the promotion. -/
def promoPage : ContentType :=
  { id := 3, aliasName := "page", className := "Page", itemType := .content,
    mixinAliases := ["promo"] }

/-- The builder of the models of all three, for a promotion that may be ignored. -/
def promoBuilder (ignored : Bool) : Builder := ofSite [card, promo ignored, promoPage] []

/-- The builder can be made, and generates a model for the page. What the page is written with
designates a type that is not ignored. -/
theorem promo_designated (ignored : Bool) :
    make siteConfig [card, promo ignored, promoPage] [] = .ok (promoBuilder ignored) ∧
      promoPage ∈ (promoBuilder ignored).generatedTypes ∧
      ∀ q ∈ (promoBuilder ignored).hierarchy.writtenPlaceholders promoPage,
        ∃ t, (promoBuilder ignored).hierarchy.Designates q t ∧ t.ignored = false := by
  have hfault : Hierarchy.fault? .sourceCode [card, promo ignored, promoPage] = none := by
    cases ignored <;> decide +kernel
  have hwritten : (promoBuilder ignored).hierarchy.writtenPlaceholders promoPage =
      [⟨"card", none⟩] := by
    cases ignored <;> decide +kernel
  have hcard : (promoBuilder ignored).hierarchy.candidates ⟨"card", none⟩ = [card] := by
    cases ignored <;> decide +kernel
  have hok : make siteConfig [card, promo ignored, promoPage] [] = .ok (promoBuilder ignored) :=
    make_siteConfig [] hfault
  refine ⟨hok, by cases ignored <;> decide +kernel, ?_⟩
  rw [hwritten, List.forall_mem_singleton]
  exact ⟨card, (Hierarchy.candidates_eq_singleton_iff (sound_of_make hok).keys).1 hcard, rfl⟩

/-- With a promotion that is not ignored, the model of the page is written in full. -/
theorem promo_written :
    make siteConfig [card, promo false, promoPage] [] = .ok (promoBuilder false) ∧
      ∃ text, ((promoBuilder false).generate promoPage).toExcept = .ok text := by
  obtain ⟨hok, hpage, hdesignated⟩ := promo_designated false
  have hactive : ∀ t ∈ [card, promo false, promoPage], t.ignored = false := by decide +kernel
  refine ⟨hok, (generate_iff_not_strands hok hpage rfl hdesignated).1.2 ?_⟩
  rintro q t ⟨-, -, mixin, hmixin, hignored, -⟩
  rw [hactive mixin (Hierarchy.mem_of_mem_implementedBy hmixin)] at hignored
  cases hignored

/-- With one that is ignored, no model is generated for the card, though what the page is written
with designates it, and the page comes to a fault. -/
theorem promo_card_missing :
    make siteConfig [card, promo true, promoPage] [] = .ok (promoBuilder true) ∧
      promoPage ∈ (promoBuilder true).generatedTypes ∧
      (∀ q ∈ (promoBuilder true).hierarchy.writtenPlaceholders promoPage,
        ∃ t, (promoBuilder true).hierarchy.Designates q t ∧ t.ignored = false) ∧
      ((promoBuilder true).generate promoPage).toExcept =
        .error (.unknownModel "\x7bcard\x7d") := by
  obtain ⟨hok, hpage, hdesignated⟩ := promo_designated true
  have hfault : ((promoBuilder true).hierarchy.writtenPlaceholders promoPage).findSome?
      (promoBuilder true).resolver.placeholderFault? = some (.unknownModel "\x7bcard\x7d") := by
    decide +kernel
  refine ⟨hok, hpage, hdesignated, Draft.toExcept_eq_error_iff.2 ?_⟩
  rw [fault_generate (sound_of_make hok) hpage rfl, hfault]

end Builder

end ContentModels
