import ContentModels.Proofs.Builder.Requests

/-!
# What a class says of its base

The header of a class names the class of the base, and its constructor calls that of the base. Both
are written without regard to the base itself, and hold good only of some.

The class of the base is named whether or not a model is generated for it. All else that headers
name is declared, so what a class names is declared except for a base that is ignored or stranded
(`Builder.generate_names_base`). The header of an interface names no such base
(`Hierarchy.declares_interfaceSupertypes`).

Every constructor takes the published item and the fallback, but only that of an element passes on
both. The call fits the constructor of another model, then, exactly in the class of an element.
Elements inherit from elements only, so from an element on, all calls along the base chain fit. From
any other type with a base, the first one does not (`Builder.constructor_calls_fit_iff`).
-/

namespace ContentModels

namespace SymbolTable

/-- What a header names is declared: the class or the interface of a model by the model of that
type. What the framework declares is there in any case. -/
def Declares (table : SymbolTable) : Supertype → Prop
  | .framework _ => True
  | .modelClass t => ⟨t.className, table.modelsNamespace, .model t.id⟩ ∈ table.entries
  | .modelInterface t =>
    ⟨t.interfaceName, table.modelsNamespace, .mixinInterface t.id⟩ ∈ table.entries

end SymbolTable

namespace Hierarchy

/-! ## What headers name -/

/-- The class of a type is declared exactly if a model is generated for the type. -/
theorem declares_modelClass_iff {h : Hierarchy} (hs : h.Sound) (catalog : List DeclaredType)
    (modelsNamespace : Namespace) {t : ContentType} (ht : t ∈ h.types) :
    (SymbolTable.build catalog h modelsNamespace).Declares (.modelClass t) ↔
      t ∈ h.generatedTypes := by
  simp only [SymbolTable.Declares, SymbolTable.build, List.mem_eraseDups, List.mem_append,
    List.mem_map, List.mem_flatMap, SymbolTable.mem_ofModel_iff]
  constructor
  · rintro (⟨d, -, hd⟩ | ⟨u, hu, hd | ⟨-, hd⟩⟩)
    · cases (Declaration.mk.inj hd).2.2
    · -- Identities tell the types apart, so it is the type itself that makes the declaration.
      have hid : t.id = u.id := Origin.model.inj (Declaration.mk.inj hd).2.2
      rwa [List.inj_on_of_nodup_map hs.ids ht (List.mem_filter.1 hu).1 hid]
    · cases (Declaration.mk.inj hd).2.2
  · exact fun hgen => .inr ⟨t, hgen, .inl rfl⟩

/-- The interface of a generated mixin is declared. -/
theorem declares_modelInterface (h : Hierarchy) (catalog : List DeclaredType)
    (modelsNamespace : Namespace) {t : ContentType} (hgen : t ∈ h.generatedTypes)
    (hmix : t.isMixin) :
    (SymbolTable.build catalog h modelsNamespace).Declares (.modelInterface t) := by
  simp only [SymbolTable.Declares, SymbolTable.build, List.mem_eraseDups, List.mem_append,
    List.mem_map, List.mem_flatMap, SymbolTable.mem_ofModel_iff]
  exact .inr ⟨t, hgen, .inr ⟨hmix, rfl⟩⟩

/-- What stands for a mixin of a type is generated, and a mixin. -/
theorem Lifts.generated {h : Hierarchy} (hs : h.Sound) {t g : ContentType} (ht : t ∈ h.types)
    (hg : h.Lifts t g) : g ∈ h.generatedTypes ∧ g.isMixin :=
  ⟨List.mem_filter.2 ⟨h.graph_closed.mem_of_reaches ht hg.reaches, hg.1⟩, hg.isMixin hs ht⟩

/-- The header of a class names the class of the base first. -/
theorem head?_classSupertypes {h : Hierarchy} {t base : ContentType}
    (hbase : h.baseOf? t = some base) :
    (h.classSupertypes t).head? = some (.modelClass base) := by
  rw [classSupertypes, hbase]
  rfl

/-- The header of a class names no other class of a model. -/
theorem modelClass_mem_classSupertypes_iff {h : Hierarchy} {t base : ContentType} :
    .modelClass base ∈ h.classSupertypes t ↔ h.baseOf? t = some base := by
  unfold classSupertypes
  cases h.baseOf? t with
  | none => cases t.isMixin <;> simp
  | some b => cases t.isMixin <;> simp [eq_comm]

/-- What the header of a generated class names is declared, unless it is the class of a base that no
model is generated for. -/
theorem declares_iff_of_mem_classSupertypes {h : Hierarchy} (hs : h.Sound)
    (catalog : List DeclaredType) (modelsNamespace : Namespace) {t : ContentType}
    (ht : t ∈ h.generatedTypes) {s : Supertype} (hmem : s ∈ h.classSupertypes t) :
    (SymbolTable.build catalog h modelsNamespace).Declares s ↔
      ∀ base, s = .modelClass base → base ∈ h.generatedTypes := by
  obtain ⟨htypes, -⟩ := List.mem_filter.1 ht
  cases s with
  | framework d => simp [SymbolTable.Declares]
  | modelClass base =>
    have hbase : base ∈ h.types := mem_of_baseOf? (modelClass_mem_classSupertypes_iff.1 hmem)
    simp [declares_modelClass_iff hs catalog modelsNamespace hbase]
  | modelInterface g =>
    have hmodel : g ∈ h.generatedTypes ∧ g.isMixin := by
      rcases modelInterface_mem_classSupertypes_iff.1 hmem with ⟨hmix, rfl⟩ | ⟨-, hlifts⟩
      · exact ⟨ht, hmix⟩
      · exact hlifts.generated hs htypes
    simp [h.declares_modelInterface catalog modelsNamespace hmodel.1 hmodel.2]

/-- All that the header of an interface names is declared, whatever the base. -/
theorem declares_interfaceSupertypes {h : Hierarchy} (hs : h.Sound) (catalog : List DeclaredType)
    (modelsNamespace : Namespace) {t : ContentType} (ht : t ∈ h.types) {s : Supertype}
    (hmem : s ∈ h.interfaceSupertypes t) :
    (SymbolTable.build catalog h modelsNamespace).Declares s := by
  cases s with
  | framework d => trivial
  | modelClass base =>
    unfold interfaceSupertypes at hmem
    cases hb : (h.baseOf? t).filter fun base => base.isMixin && h.isGenerated base <;> simp_all
  | modelInterface g =>
    rcases extends_iff.1 hmem with ⟨hbase, hmix, hgen⟩ | hlifts
    · have hmodel : g ∈ h.generatedTypes := List.mem_filter.2 ⟨mem_of_baseOf? hbase, hgen⟩
      exact h.declares_modelInterface catalog modelsNamespace hmodel hmix
    · obtain ⟨hmodel, hmix⟩ := hlifts.generated hs ht
      exact h.declares_modelInterface catalog modelsNamespace hmodel hmix

/-- A type of the hierarchy has a model exactly if it is not ignored and not stranded. -/
theorem mem_generatedTypes_iff_not_stranded {h : Hierarchy} (hs : h.Sound) {t : ContentType}
    (ht : t ∈ h.types) :
    t ∈ h.generatedTypes ↔ t.ignored = false ∧ ¬ h.Stranded t := by
  constructor
  · intro hgen
    have hactive : t.ignored = false := (mem_generatedTypes_iff.1 hgen).2.1
    exact ⟨hactive, fun hstranded => (stranded_iff hs.keys ht hactive).1 hstranded hgen⟩
  · rintro ⟨hactive, hnot⟩
    by_contra hgen
    exact hnot ((stranded_iff hs.keys ht hactive).2 hgen)

end Hierarchy

namespace ContentType

/-! ## Constructors -/

/-- The call in the constructor of `t` fits the constructor of `base`: it passes on the arguments
that this takes, and they are of the same types. -/
structure PassesOn (t base : ContentType) : Prop where
  /-- As many arguments are passed on, in the same order. -/
  arguments : t.baseArguments = base.constructorParameters
  /-- Each is of the same type. -/
  types : ∀ a ∈ t.baseArguments, t.argumentType a = base.argumentType a

end ContentType

namespace Hierarchy

/-- The base of an element is an element. -/
theorem Sound.isElement_base {h : Hierarchy} (hs : h.Sound) {t base : ContentType}
    (ht : t ∈ h.types) (hbase : h.baseOf? t = some base) (helement : t.isElement) :
    base.isElement :=
  ContentType.isElement_iff.2 (hs.linked.elements t ht (ContentType.isElement_iff.1 helement) base
    (hs.edge_iff.1 (edge_of_baseOf? hbase)))

/-- The call for the constructor of the base fits it exactly in the class of an element. -/
theorem passesOn_iff {h : Hierarchy} (hs : h.Sound) {t base : ContentType} (ht : t ∈ h.types)
    (hbase : h.baseOf? t = some base) : t.PassesOn base ↔ t.isElement := by
  constructor
  · rintro ⟨harguments, -⟩
    by_contra hnot
    rw [ContentType.baseArguments, if_neg hnot] at harguments
    cases harguments
  · intro helement
    have hbaseElement := hs.isElement_base ht hbase helement
    refine ⟨by rw [ContentType.baseArguments, if_pos helement]; rfl, fun a _ => ?_⟩
    cases a with
    | content =>
      simp only [ContentType.argumentType, ContentType.publishedInterface, helement, hbaseElement]
    | fallback => rfl

/-- A base chain starts with its type. -/
theorem BaseChain.exists_cons {h : Hierarchy} {t : ContentType} {chain : List ContentType}
    (hchain : h.BaseChain t chain) : ∃ rest, chain = t :: rest := by
  cases hchain with
  | root _ => exact ⟨[], rfl⟩
  | step _ _ => exact ⟨_, rfl⟩

/-- All along a base chain, the calls fit the constructors exactly if the chain starts with an
element, or is of one type. -/
theorem BaseChain.passesOn_iff {h : Hierarchy} (hs : h.Sound) {t : ContentType}
    {chain : List ContentType} (ht : t ∈ h.types) (hchain : h.BaseChain t chain) :
    chain.IsChain ContentType.PassesOn ↔ t.isElement ∨ chain = [t] := by
  induction hchain with
  | root _ => simp
  | @step t base chain hbase hchain ih =>
    have hcall := Hierarchy.passesOn_iff hs ht hbase
    have hmem : base ∈ h.types := mem_of_baseOf? hbase
    obtain ⟨rest, rfl⟩ := hchain.exists_cons
    rw [List.isChain_cons_cons, hcall, ih hmem]
    constructor
    · exact fun hall => .inl hall.1
    · rintro (helement | hone)
      · exact ⟨helement, .inl (hs.isElement_base ht hbase helement)⟩
      · cases hone

end Hierarchy

namespace Writer

/-! ## What is written of the base -/

/-- The header of a class: its name, and what it names behind the colon. -/
def classHeader (w : Writer) (t : ContentType) : String :=
  String.join
    ["\tpublic partial class ", t.className, " : ",
      w.supertypes (w.hierarchy.classSupertypes t), "\n\t\x7b\n"]

/-- The head of a constructor: the arguments that it takes, with their types, and those that it
passes on. -/
def constructorHead (w : Writer) (t : ContentType) : String :=
  String.join
    ["\t\tpublic ", t.className, "(",
      ", ".intercalate (t.constructorParameters.map fun a =>
        w.framework (t.argumentType a) ++ " " ++ a.name), ")\n",
      "\t\t\t: base(", ", ".intercalate (t.baseArguments.map Argument.name), ")\n"]

/-- A class holds its header. -/
theorem classOf_holds_classHeader (w : Writer) (t : ContentType) :
    (w.classOf t).Holds (Draft.ofString (w.classHeader t)) := by
  rw [classHeader, ← Draft.concat_map_ofString]
  exact Draft.holds_concat_append [_, _] [_, _, _, _, _] [_, _, _, _, _]

/-- A class holds the head of its constructor. -/
theorem classOf_holds_constructorHead (w : Writer) (t : ContentType) :
    (w.classOf t).Holds (Draft.ofString (w.constructorHead t)) := by
  have hconstructor : (w.classOf t).Holds (Draft.ofString (w.constructor t)) :=
    Draft.holds_concat (by simp)
  refine hconstructor.trans ?_
  rw [constructor, constructorHead, ← Draft.concat_map_ofString, ← Draft.concat_map_ofString]
  exact Draft.holds_concat_append [_, _, _, _] [_, _, _, _, _, _, _, _] [_, _, _]

end Writer

namespace Builder

/-- What a builder writes for a type is the model of a type that it generates: the header of the
class and the head of its constructor are part of it. -/
theorem exists_model_of_generate {b : Builder} (hs : b.hierarchy.Sound) {u : ContentType}
    {text : String} (h : (b.generate u).toExcept = .ok text) :
    ∃ m ∈ b.generatedTypes, u.key = m.key ∧
      (b.writer.classHeader m).toList <:+: text.toList ∧
      (b.writer.constructorHead m).toList <:+: text.toList := by
  obtain ⟨m, hm, hkey⟩ := generates_of_generate hs h
  have hfile : (b.generate u).Holds (b.writer.classOf m) := by
    rw [generate_eq hs ⟨m, hm, hkey⟩, requestedModel_eq hs hm hkey]
    exact ((Draft.holds_append_right _ _).trans (Draft.holds_append_left _ _)).trans
      (Draft.holds_append_right _ _)
  refine ⟨m, hm, hkey, ?_, ?_⟩
  · exact (hfile.trans (b.writer.classOf_holds_classHeader m)).infix_of_ofString h
  · exact (hfile.trans (b.writer.classOf_holds_constructorHead m)).infix_of_ofString h

/-- A generated type that is written without placeholders is written, and so are the header of its
class and the head of its constructor. -/
theorem exists_generate_of_no_placeholders {b : Builder} (hs : b.hierarchy.Sound) {m : ContentType}
    (hm : m ∈ b.generatedTypes) (hnone : b.hierarchy.writtenPlaceholders m = []) :
    ∃ text, (b.generate m).toExcept = .ok text ∧
      (b.writer.classHeader m).toList <:+: text.toList ∧
      (b.writer.constructorHead m).toList <:+: text.toList := by
  have hfault : (b.generate m).fault = none := by rw [fault_generate hs hm rfl, hnone]; rfl
  obtain ⟨text, htext⟩ := Draft.exists_toExcept_iff.2 hfault
  obtain ⟨n, hn, hkey, hheader, hhead⟩ := exists_model_of_generate hs htext
  obtain rfl : m = n :=
    List.inj_on_of_nodup_map hs.keys (List.mem_filter.1 hm).1 (List.mem_filter.1 hn).1 hkey
  exact ⟨text, htext, hheader, hhead⟩

/-- The class that is written for a type names the class of the base first, whether or not a model
is generated for the base, and no other class of a model. All that its header names is declared,
except for the class of a base that is ignored or stranded. -/
theorem generate_names_base {config : Config} {types : List ContentType}
    {catalog : List DeclaredType} {b : Builder} (hmake : make config types catalog = .ok b)
    {u : ContentType} {text : String} (htext : (b.generate u).toExcept = .ok text) :
    ∃ m ∈ b.generatedTypes, u.key = m.key ∧
      (b.writer.classHeader m).toList <:+: text.toList ∧
      (∀ base, b.hierarchy.HasBase m base →
        (b.hierarchy.classSupertypes m).head? = some (.modelClass base)) ∧
      (∀ base, .modelClass base ∈ b.hierarchy.classSupertypes m → b.hierarchy.HasBase m base) ∧
      ∀ s ∈ b.hierarchy.classSupertypes m, b.symbols.Declares s ↔
        ∀ base, s = .modelClass base → base.ignored = false ∧ ¬ b.hierarchy.Stranded base := by
  have hs := sound_of_make hmake
  obtain ⟨m, hm, hkey, hheader, -⟩ := exists_model_of_generate hs htext
  obtain ⟨-, h, -, rfl⟩ := make_eq_ok_iff.1 hmake
  have hbase : ∀ base, h.baseOf? m = some base ↔ h.HasBase m base := fun base =>
    Hierarchy.baseOf?_eq_some_iff hs.keys hs.ids
  refine ⟨m, hm, hkey, hheader, fun base hb => ?_, fun base hmem => ?_, fun s hmem => ?_⟩
  · exact Hierarchy.head?_classSupertypes ((hbase base).2 hb)
  · exact (hbase base).1 (Hierarchy.modelClass_mem_classSupertypes_iff.1 hmem)
  · refine (Hierarchy.declares_iff_of_mem_classSupertypes hs catalog config.modelsNamespace hm
      hmem).trans (forall_congr' fun base => imp_congr_right fun hclass => ?_)
    have htypes : base ∈ h.types := Hierarchy.mem_of_baseOf?
      (Hierarchy.modelClass_mem_classSupertypes_iff.1 (hclass ▸ hmem))
    exact Hierarchy.mem_generatedTypes_iff_not_stranded hs htypes

/-- All that the header of the news names is declared: the page that they inherit from is. -/
theorem news_base_declared :
    make siteConfig Writer.newsTypes [] = .ok (ofSite Writer.newsTypes []) ∧
      ∃ text, ((ofSite Writer.newsTypes []).generate Writer.newsTypes[3]).toExcept = .ok text ∧
        ((ofSite Writer.newsTypes []).writer.classHeader Writer.newsTypes[3]).toList <:+:
          text.toList ∧
        ∀ s ∈ (ofSite Writer.newsTypes []).hierarchy.classSupertypes Writer.newsTypes[3],
          (ofSite Writer.newsTypes []).symbols.Declares s := by
  have hok : make siteConfig Writer.newsTypes [] = .ok (ofSite Writer.newsTypes []) :=
    make_siteConfig [] (by decide +kernel)
  have hs := sound_of_make hok
  have hgen : ∀ t ∈ Writer.newsTypes, t ∈ (ofSite Writer.newsTypes []).generatedTypes := by
    decide +kernel
  have hnews : Writer.newsTypes[3] ∈ Writer.newsTypes := by decide +kernel
  obtain ⟨text, htext, -⟩ :=
    exists_generate_of_no_placeholders hs (hgen _ hnews) (by decide +kernel)
  obtain ⟨m, hm, hkey, hheader, -, hbases, hdeclared⟩ := generate_names_base hok htext
  obtain rfl : Writer.newsTypes[3] = m :=
    List.inj_on_of_nodup_map hs.keys hnews (List.mem_filter.1 hm).1 hkey
  refine ⟨hok, text, htext, hheader, fun s hmem => (hdeclared s hmem).2 ?_⟩
  rintro base rfl
  have htypes := Hierarchy.mem_of_hasSupertype (.inl (hbases base hmem))
  exact (Hierarchy.mem_generatedTypes_iff_not_stranded hs htypes).1 (hgen base htypes)

/-- A page that inherits from an archive, for which no model is generated. -/
def archiveTypes : List ContentType :=
  [{ id := 1, aliasName := "archive", className := "Archive", itemType := .content,
      ignored := true },
    { id := 2, aliasName := "page", className := "Page", itemType := .content, parentId := 1 }]

/-- The class of the page is written in full and names the class of the archive, which nothing
declares. -/
theorem page_names_undeclared_archive :
    make siteConfig archiveTypes [] = .ok (ofSite archiveTypes []) ∧
      (ofSite archiveTypes []).hierarchy.HasBase archiveTypes[1] archiveTypes[0] ∧
      archiveTypes[0] ∉ (ofSite archiveTypes []).generatedTypes ∧
      (∃ text, ((ofSite archiveTypes []).generate archiveTypes[1]).toExcept = .ok text ∧
        "\tpublic partial class Page : Archive\n\t\x7b\n".toList <:+: text.toList) ∧
      (ofSite archiveTypes []).symbols.declarationsOf "Archive" = [] := by
  have hok : make siteConfig archiveTypes [] = .ok (ofSite archiveTypes []) :=
    make_siteConfig [] (by decide +kernel)
  have hs := sound_of_make hok
  have hbase : (ofSite archiveTypes []).hierarchy.baseOf? archiveTypes[1] =
      some archiveTypes[0] := by decide +kernel
  obtain ⟨text, htext, hheader, -⟩ := exists_generate_of_no_placeholders hs
    (show archiveTypes[1] ∈ (ofSite archiveTypes []).generatedTypes by decide +kernel)
    (by decide +kernel)
  have hwritten : (ofSite archiveTypes []).writer.classHeader archiveTypes[1] =
      "\tpublic partial class Page : Archive\n\t\x7b\n" := by decide +kernel
  exact ⟨hok, (Hierarchy.baseOf?_eq_some_iff hs.keys hs.ids).1 hbase, by decide +kernel,
    ⟨text, htext, hwritten ▸ hheader⟩, by decide +kernel⟩

/-- The classes that a builder writes hold the heads of their constructors. The call in the class of
a type fits the constructor of its base exactly if the type is an element, and the calls all along a
base chain fit exactly if the chain starts with an element, or is of one type. -/
theorem constructor_calls_fit_iff {config : Config} {types : List ContentType}
    {catalog : List DeclaredType} {b : Builder} (hmake : make config types catalog = .ok b) :
    (∀ (u : ContentType) (text : String), (b.generate u).toExcept = .ok text →
      ∃ m ∈ b.generatedTypes, u.key = m.key ∧
        (b.writer.constructorHead m).toList <:+: text.toList) ∧
    (∀ t ∈ b.hierarchy.types, ∀ base, b.hierarchy.HasBase t base →
      (t.PassesOn base ↔ t.isElement)) ∧
    ∀ t ∈ b.hierarchy.types, ∀ chain, b.hierarchy.BaseChain t chain →
      (chain.IsChain ContentType.PassesOn ↔ t.isElement ∨ chain = [t]) := by
  have hs := sound_of_make hmake
  refine ⟨fun u text htext => ?_, fun t ht base hbase => ?_, fun t ht chain hchain => ?_⟩
  · obtain ⟨m, hm, hkey, -, hhead⟩ := exists_model_of_generate hs htext
    exact ⟨m, hm, hkey, hhead⟩
  · exact Hierarchy.passesOn_iff hs ht ((Hierarchy.baseOf?_eq_some_iff hs.keys hs.ids).2 hbase)
  · exact hchain.passesOn_iff hs ht

/-- A teaser that inherits from a card, both of them elements. -/
def teaserTypes : List ContentType :=
  [{ id := 1, aliasName := "card", className := "Card", itemType := .element },
    { id := 2, aliasName := "teaser", className := "Teaser", itemType := .element, parentId := 1 }]

/-- The call in the class of the teaser, which is written, fits the constructor of the card. -/
theorem teaser_call_fits :
    make siteConfig teaserTypes [] = .ok (ofSite teaserTypes []) ∧
      (∃ text, ((ofSite teaserTypes []).generate teaserTypes[1]).toExcept = .ok text) ∧
      [teaserTypes[1], teaserTypes[0]].IsChain ContentType.PassesOn := by
  have hok : make siteConfig teaserTypes [] = .ok (ofSite teaserTypes []) :=
    make_siteConfig [] (by decide +kernel)
  obtain ⟨text, htext, -⟩ := exists_generate_of_no_placeholders (sound_of_make hok)
    (show teaserTypes[1] ∈ (ofSite teaserTypes []).generatedTypes by decide +kernel)
    (by decide +kernel)
  have hbase : (ofSite teaserTypes []).hierarchy.baseOf? teaserTypes[1] = some teaserTypes[0] := by
    decide +kernel
  have hroot : (ofSite teaserTypes []).hierarchy.baseOf? teaserTypes[0] = none := by
    decide +kernel
  have hmem : teaserTypes[1] ∈ (ofSite teaserTypes []).hierarchy.types := by decide +kernel
  exact ⟨hok, ⟨text, htext⟩,
    ((constructor_calls_fit_iff hok).2.2 _ hmem _ (.step hbase (.root hroot))).2 (.inl rfl)⟩

/-- An article that inherits from a page. -/
def articlePageTypes : List ContentType :=
  [{ id := 1, aliasName := "page", className := "Page", itemType := .content },
    { id := 2, aliasName := "article", className := "Article", itemType := .content,
      parentId := 1 }]

/-- The constructor of the page takes two arguments, and the class of the article, which inherits
from it, passes on one. -/
theorem article_call_lacks_fallback :
    make siteConfig articlePageTypes [] = .ok (ofSite articlePageTypes []) ∧
      (ofSite articlePageTypes []).hierarchy.HasBase articlePageTypes[1] articlePageTypes[0] ∧
      (∃ text, ((ofSite articlePageTypes []).generate articlePageTypes[0]).toExcept = .ok text ∧
        ("\t\tpublic Page(" ++
          "global::Umbraco.Cms.Core.Models.PublishedContent.IPublishedContent content, " ++
          "global::Umbraco.Cms.Core.Models.PublishedContent.IPublishedValueFallback " ++
          "publishedValueFallback)\n\t\t\t: base(content)\n").toList <:+: text.toList) ∧
      (∃ text, ((ofSite articlePageTypes []).generate articlePageTypes[1]).toExcept = .ok text ∧
        ("\t\tpublic Article(" ++
          "global::Umbraco.Cms.Core.Models.PublishedContent.IPublishedContent content, " ++
          "global::Umbraco.Cms.Core.Models.PublishedContent.IPublishedValueFallback " ++
          "publishedValueFallback)\n\t\t\t: base(content)\n").toList <:+: text.toList) ∧
      articlePageTypes[1].baseArguments ≠ articlePageTypes[0].constructorParameters := by
  have hok : make siteConfig articlePageTypes [] = .ok (ofSite articlePageTypes []) :=
    make_siteConfig [] (by decide +kernel)
  have hs := sound_of_make hok
  have hgen : ∀ t ∈ articlePageTypes, t ∈ (ofSite articlePageTypes []).generatedTypes ∧
      (ofSite articlePageTypes []).hierarchy.writtenPlaceholders t = [] := by decide +kernel
  have hbase : (ofSite articlePageTypes []).hierarchy.baseOf? articlePageTypes[1] =
      some articlePageTypes[0] := by decide +kernel
  have hwritten : ∀ t ∈ articlePageTypes, (ofSite articlePageTypes []).writer.constructorHead t =
      "\t\tpublic " ++ t.className ++ "(" ++
        "global::Umbraco.Cms.Core.Models.PublishedContent.IPublishedContent content, " ++
        "global::Umbraco.Cms.Core.Models.PublishedContent.IPublishedValueFallback " ++
        "publishedValueFallback)\n\t\t\t: base(content)\n" := by decide +kernel
  have hpage : articlePageTypes[0] ∈ articlePageTypes := by decide +kernel
  have harticle : articlePageTypes[1] ∈ articlePageTypes := by decide +kernel
  obtain ⟨page, hpageText, -, hpageHead⟩ :=
    exists_generate_of_no_placeholders hs (hgen _ hpage).1 (hgen _ hpage).2
  obtain ⟨article, harticleText, -, harticleHead⟩ :=
    exists_generate_of_no_placeholders hs (hgen _ harticle).1 (hgen _ harticle).2
  rw [hwritten _ hpage] at hpageHead
  rw [hwritten _ harticle] at harticleHead
  exact ⟨hok, (Hierarchy.baseOf?_eq_some_iff hs.keys hs.ids).1 hbase, ⟨page, hpageText, hpageHead⟩,
    ⟨article, harticleText, harticleHead⟩, by decide⟩

end Builder

end ContentModels
