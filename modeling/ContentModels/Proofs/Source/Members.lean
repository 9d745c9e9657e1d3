import ContentModels.Proofs.Draft
import ContentModels.Proofs.Hierarchy.Members
import ContentModels.Source.Class

/-!
# The members that are written

The types of some properties are written in several places, but of an interface or a class the first
property whose type cannot be written decides the fault (`Writer.fault_interfaceOf`,
`fault_classOf`). Interfaces and classes are therefore written in full exactly if the types of their
properties can be (`exists_interfaceOf_iff`, `exists_classOf_iff`). The interface of a mixin
declares its properties, and so do the classes that implement it, with the same types (`Declares`).
Each class therefore implements what the interfaces that it declares ask for, by a member of its own
or of one of its base classes (`interface_member_implemented_once`).
-/

namespace ContentModels

namespace Writer

/-! ## What keeps from writing -/

/-- The type of a property can be written. -/
def Resolves (w : Writer) (p : Property) : Prop := ∃ type, w.resolver.resolve p.type = .ok type

/-- The type of a property can be written if writing it comes to no fault. -/
theorem resolves_iff {w : Writer} {p : Property} : w.Resolves p ↔ (w.type p.type).fault = none :=
  Draft.exists_toExcept_iff

/-- Of a property in an interface, the type decides the fault. -/
theorem fault_interfaceMember (w : Writer) (p : Property) :
    (w.interfaceMember p).fault = (w.type p.type).fault := by
  simp [interfaceMember]

/-- An interface comes to the fault of its first property whose type cannot be written. -/
theorem fault_interfaceOf (w : Writer) (m : ContentType) :
    (w.interfaceOf m).fault = m.sortedProperties.findSome? fun p => (w.type p.type).fault := by
  simp [interfaceOf, List.findSome?_map, Function.comp_def, fault_interfaceMember]

/-- An interface is written in full if the types of its properties can be. -/
theorem exists_interfaceOf_iff {w : Writer} {m : ContentType} :
    (∃ s, (w.interfaceOf m).toExcept = .ok s) ↔ ∀ p ∈ m.activeProperties, w.Resolves p := by
  simp only [Draft.exists_toExcept_iff, fault_interfaceOf, List.findSome?_eq_none_iff, resolves_iff,
    ContentType.mem_sortedProperties_iff]

/-- A type argument comes to the fault of the type or, where it is left out, to none. -/
theorem fault_valueArgument (w : Writer) (p : Property) :
    (w.valueArgument p).fault =
      if p.type.isObject then none else (w.type p.type).fault := by
  unfold valueArgument
  split
  · rfl
  · simp

/-- Behind the type, a type argument comes to no further fault. -/
theorem fault_or_fault_valueArgument (w : Writer) (p : Property) :
    (w.type p.type).fault.or (w.valueArgument p).fault = (w.type p.type).fault := by
  rw [fault_valueArgument]
  split
  · rw [Option.or_none]
  · rw [Option.or_self]

/-- Of the code of a member, the type decides the fault. -/
theorem fault_memberCode (w : Writer) (member : Member) :
    (w.memberCode member).fault = (w.type member.property.type).fault := by
  have hbody : (w.type member.property.type).fault.or (w.memberBody member).fault =
      (w.type member.property.type).fault := by
    unfold memberBody
    split
    · simp [fault_or_fault_valueArgument]
    · rw [Draft.fault_ofString, Option.or_none]
    · rw [Draft.fault_ofString, Option.or_none]
  simp [memberCode, hbody]

/-- Of a static getter, the type decides the fault. -/
theorem fault_getter (w : Writer) (owner : ContentType) (p : Property) :
    (w.getter owner p).fault = (w.type p.type).fault := by
  simp [getter, fault_or_fault_valueArgument]

/-- Of a member, whatever is written for it, the type decides the fault. -/
theorem fault_member (w : Writer) (member : Member) :
    (w.member member).fault = (w.type member.property.type).fault := by
  have hcode : ((if member.isDisabled then
      Draft.concat [Comment.openBlock member.property.errors, w.memberCode member,
        Comment.closeBlock]
      else w.memberCode member) : Draft).fault = (w.type member.property.type).fault := by
    split
    · simp [fault_memberCode]
    · exact w.fault_memberCode member
  rw [Writer.member, Draft.fault_concat, Draft.findSome?_fault_cons, Draft.findSome?_fault_cons,
    Draft.findSome?_fault_cons, List.findSome?_nil, Draft.fault_ofString, Option.none_or,
    Option.or_none, hcode]
  -- What a getter beside the code could come to is the same fault.
  split
  · rw [fault_getter, Option.or_self]
  · rw [Draft.fault_ofString, Option.or_none]

/-- A class comes to the fault of its first member whose type cannot be written. -/
theorem fault_classOf (w : Writer) (t : ContentType) :
    (w.classOf t).fault =
      (w.hierarchy.members t).findSome? fun member => (w.type member.property.type).fault := by
  simp [classOf, List.findSome?_map, Function.comp_def, fault_member]

/-- A class is written in full if the types of its members can be. -/
theorem exists_classOf_iff {w : Writer} {t : ContentType} :
    (∃ s, (w.classOf t).toExcept = .ok s) ↔
      ∀ member ∈ w.hierarchy.members t, w.Resolves member.property := by
  simp only [Draft.exists_toExcept_iff, fault_classOf, List.findSome?_eq_none_iff, resolves_iff]

/-! ## Declarations -/

/-- A draft that is written in full gives the type of a property as the resolver does, and behind it
the name, between `lead` and `trail`. -/
def Declares (w : Writer) (d : Draft) (lead : String) (p : Property) (trail : String) : Prop :=
  ∀ s, d.toExcept = .ok s → ∃ type, w.resolver.resolve p.type = .ok type ∧
    (lead ++ type ++ " " ++ p.memberName ++ trail).toList <:+: s.toList

/-- A declaration that is part of a draft is written with the type that the resolver gives. -/
theorem declares_of_holds {w : Writer} {d : Draft} {lead trail : String} {p : Property}
    (h : d.Holds (Draft.concat [lead, w.type p.type, " ", p.memberName, trail])) :
    w.Declares d lead p trail := by
  intro s hs
  have htype : d.Holds (w.type p.type) := h.trans (Draft.holds_concat (by simp))
  obtain ⟨type, hresolve, -⟩ := htype.exists_text hs
  obtain ⟨t, ht, hpart⟩ := h.exists_text hs
  have hsame : w.type p.type = Draft.ofString type := Draft.toExcept_eq_ok_iff.1 hresolve
  have htext : Draft.concat [lead, Draft.ofString type, " ", p.memberName, trail] =
      Draft.ofString (lead ++ type ++ " " ++ p.memberName ++ trail) := by
    rw [Draft.ext_iff]
    simp [Draft.concat_cons, Draft.concat_nil, Draft.ofString_append, String.append_assoc]
  rw [hsame, htext] at ht
  obtain rfl : lead ++ type ++ " " ++ p.memberName ++ trail = t := Except.ok.inj ht
  exact ⟨type, hresolve, hpart⟩

/-- The interface of a mixin declares its active properties. -/
theorem interfaceOf_declares (w : Writer) {m : ContentType} {p : Property}
    (hp : p ∈ m.activeProperties) :
    w.Declares (w.interfaceOf m) "\t\t" p " \x7b get; \x7d\n" := by
  have hmem : w.interfaceMember p ∈ m.sortedProperties.map w.interfaceMember :=
    List.mem_map_of_mem (ContentType.mem_sortedProperties_iff.2 hp)
  have hlist : (Draft.join "\n" (m.sortedProperties.map w.interfaceMember)).Holds
      (w.interfaceMember p) := Draft.holds_join hmem
  have hbody : (w.interfaceOf m).Holds (w.interfaceMember p) :=
    .trans (Draft.holds_concat (by simp)) hlist
  exact declares_of_holds (hbody.trans (Draft.holds_concat_append [_, _] [_, _, _, _, _] []))

/-- A class holds its members. -/
theorem classOf_holds_member (w : Writer) {t : ContentType} {member : Member}
    (hmember : member ∈ w.hierarchy.members t) : (w.classOf t).Holds (w.member member) := by
  have hmem : w.member member ∈ (w.hierarchy.members t).map w.member :=
    List.mem_map_of_mem hmember
  have hlist : (Draft.concat ((w.hierarchy.members t).map w.member)).Holds (w.member member) :=
    Draft.holds_concat hmem
  exact .trans (Draft.holds_concat (by simp)) hlist

/-- A member that is not disabled is declared in its class. -/
theorem classOf_declares (w : Writer) {t : ContentType} {member : Member}
    (hmember : member ∈ w.hierarchy.members t) (henabled : member.isDisabled = false) :
    w.Declares (w.classOf t) "\t\tpublic " member.property " => " := by
  have hcode : (w.member member).Holds (w.memberCode member) := by
    unfold Writer.member
    rw [henabled, if_neg Bool.false_ne_true]
    exact Draft.holds_concat (by simp)
  exact declares_of_holds (((w.classOf_holds_member hmember).trans hcode).trans
    (Draft.holds_concat_append [_, _, _] [_, _, _, _, _] [_]))

/-! ## Interfaces and the classes that declare them -/

/-- The class of `u` has `member` for the property `p` of the mixin `m`, and is written with it. -/
structure Implementing (w : Writer) (u m : ContentType) (p : Property) (member : Member) :
    Prop where
  /-- A model is generated for the type. -/
  generated : u ∈ w.hierarchy.generatedTypes
  /-- The member is one of the class. -/
  mem : member ∈ w.hierarchy.members u
  /-- The member is for a property of the mixin. -/
  mixin : member.mixin? = some m
  /-- The property is the given one. -/
  property : member.property = p
  /-- The member does not stand inside a comment. -/
  enabled : member.isDisabled = false
  /-- The class is written in full if the types of its members can be. -/
  written : (∃ s, (w.classOf u).toExcept = .ok s) ↔
    ∀ other ∈ w.hierarchy.members u, w.Resolves other.property
  /-- The class declares the property as a public one. -/
  declared : w.Declares (w.classOf u) "\t\tpublic " p " => "

/-- Of an accepted hierarchy, let the class of a generated type declare an interface, itself or
through the interfaces that it names, and let all types of its base chain be generated. The
interface is that of a generated mixin, and it is written in full if the types of its properties can
be. It declares each active property of the mixin that has no error, and one class on the chain, and
no other, has a member for the property of that mixin and name, which it declares with the same
type. -/
theorem interface_member_implemented_once {mode : Mode} {types : List ContentType} {w : Writer}
    (hok : Hierarchy.ofTypes mode types = .ok w.hierarchy) {t m : ContentType}
    {chain : List ContentType} (ht : t ∈ w.hierarchy.generatedTypes)
    (hchain : w.hierarchy.BaseChain t chain) (hgen : ∀ u ∈ chain, u ∈ w.hierarchy.generatedTypes)
    (hm : w.hierarchy.DeclaresInterface t m) :
    m ∈ w.hierarchy.generatedTypes ∧ m.isMixin ∧
      ((∃ s, (w.interfaceOf m).toExcept = .ok s) ↔ ∀ p ∈ m.activeProperties, w.Resolves p) ∧
      ∀ p ∈ m.activeProperties, p.errors = [] →
        w.Declares (w.interfaceOf m) "\t\t" p " \x7b get; \x7d\n" ∧
          ∃ (i : Nat) (u : ContentType) (member : Member),
            chain[i]? = some u ∧ w.Implementing u m p member ∧
              ∀ (j : Nat) (v : ContentType) (other : Member), chain[j]? = some v →
                other ∈ w.hierarchy.members v → other.mixin? = some m →
                other.property.memberName = p.memberName → j = i ∧ other = member := by
  obtain ⟨htypes, htgen⟩ := List.mem_filter.1 ht
  obtain ⟨hreaches, hmix, hmgen⟩ := hm.mixin (Hierarchy.sound_of_ofTypes hok) htypes htgen
  have hmtypes := w.hierarchy.graph_closed.mem_of_reaches htypes hreaches
  refine ⟨List.mem_filter.2 ⟨hmtypes, hmgen⟩, hmix, exists_interfaceOf_iff,
    fun p hp herrors => ⟨w.interfaceOf_declares hp, ?_⟩⟩
  obtain ⟨i, u, hi, hmember, hunique⟩ :=
    hchain.exists_unique_member hok htypes hmix hmgen hreaches hp
  have henabled := Member.isDisabled_eq_false (m := ⟨p, Hierarchy.mixinDelivery u m⟩) herrors
  exact ⟨i, u, _, hi,
    { generated := hgen u (List.mem_of_getElem? hi)
      mem := hmember
      mixin := Hierarchy.mixin?_mixinDelivery u m p
      property := rfl
      enabled := henabled
      written := exists_classOf_iff
      declared := w.classOf_declares hmember henabled }, hunique⟩

/-- News inherit from a page with keywords, and are composed of an author that has keywords too. -/
def newsTypes : List ContentType :=
  [{ id := 1, aliasName := "meta", className := "Meta", itemType := .content, usage := .mixin,
      properties := [{ aliasName := "keywords", memberName := "Keywords", type := .string }] },
    { id := 2, aliasName := "author", className := "Author", itemType := .content, usage := .mixin,
      mixinAliases := ["meta"] },
    { id := 3, aliasName := "page", className := "Page", itemType := .content,
      mixinAliases := ["meta"] },
    { id := 4, aliasName := "news", className := "News", itemType := .content, parentId := 3,
      mixinAliases := ["author"] }]

/-- The writer of the models of the news, in a namespace without imports. -/
def newsWriter : Writer :=
  ⟨⟨.build [] ⟨newsTypes⟩ ⟨"Site"⟩, ⟨newsTypes⟩, ⟨⟨"Site"⟩, []⟩⟩, {}⟩

/-- The interface of the author, which the header of the news names, extends that of the metadata.
The latter is written, and it is a base class of the news that has the keywords. -/
theorem news_keywords_implemented :
    Hierarchy.ofTypes .sourceCode newsTypes = .ok newsWriter.hierarchy ∧
      newsWriter.hierarchy.DeclaresInterface newsTypes[3] newsTypes[0] ∧
      (∃ s, (newsWriter.interfaceOf newsTypes[0]).toExcept = .ok s) ∧
      ∃ (i : Nat) (u : ContentType) (member : Member),
        [newsTypes[3], newsTypes[2]][i]? = some u ∧
          newsWriter.Implementing u newsTypes[0]
            { aliasName := "keywords", memberName := "Keywords", type := .string } member := by
  have hok : Hierarchy.ofTypes .sourceCode newsTypes = .ok newsWriter.hierarchy :=
    Hierarchy.ofTypes_sourceCode_eq_ok (by decide +kernel)
  have hbase : newsWriter.hierarchy.baseOf? newsTypes[3] = some newsTypes[2] := by decide +kernel
  have hroot : newsWriter.hierarchy.baseOf? newsTypes[2] = none := by decide +kernel
  have hgen : ∀ u ∈ newsTypes, u ∈ newsWriter.hierarchy.generatedTypes := by decide +kernel
  have hchain : ∀ u ∈ [newsTypes[3], newsTypes[2]], u ∈ newsTypes := by decide +kernel
  have hauthor : newsTypes[1] ∈ newsWriter.hierarchy.lifted newsTypes[3] := by decide +kernel
  have hmeta : newsTypes[0] ∈ newsWriter.hierarchy.lifted newsTypes[1] := by decide +kernel
  have hdeclares : newsWriter.hierarchy.DeclaresInterface newsTypes[3] newsTypes[0] := by
    refine ⟨newsTypes[1], Hierarchy.modelInterface_mem_classSupertypes_iff.2 (.inr ⟨rfl, ?_⟩),
      .single (Hierarchy.extends_iff.2 (.inr (Hierarchy.mem_lifted_iff.1 hmeta)))⟩
    exact Hierarchy.mem_lifted_iff.1 hauthor
  have hstring : newsWriter.Resolves
      { aliasName := "keywords", memberName := "Keywords", type := .string } := ⟨"string", rfl⟩
  obtain ⟨-, -, hwritten, hproperty⟩ := interface_member_implemented_once hok
    (hgen _ (hchain _ (by simp))) (.step hbase (.root hroot))
    (fun u hu => hgen u (hchain u hu)) hdeclares
  obtain ⟨-, i, u, member, hi, himplementing, -⟩ :=
    hproperty { aliasName := "keywords", memberName := "Keywords", type := .string }
      (by decide) rfl
  refine ⟨hok, hdeclares, hwritten.2 fun p hp => ?_, i, u, member, hi, himplementing⟩
  exact List.mem_singleton.1 hp ▸ hstring

end Writer

end ContentModels
