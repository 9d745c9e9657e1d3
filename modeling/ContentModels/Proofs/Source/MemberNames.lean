import ContentModels.Proofs.Source.Members
import Mathlib.Data.List.Pairwise

/-!
# The names of the members of a class

A class writes the properties of its type and of each mixin that the type implements. Member names
are checked type by type when a hierarchy is accepted, so within the properties of one type they
differ, and no type has an active property that is named like its own class and is free of errors.
Nothing is checked between the types that one class draws on.

`Writer.activeNames_nodup_iff` says what is left open. The active members of a class differ in name
from each other and from the class exactly if no two of the types that it draws on give it a member
of the same name, and no mixin one that is named like the class.
-/

namespace ContentModels

/-- What is put together from different elements holds nothing twice exactly if no element gives
anything twice, and no two elements give the same. -/
theorem nodup_flatMap_iff_of_nodup {α β : Type} {l : List α} (hl : l.Nodup) {f : α → List β} :
    (l.flatMap f).Nodup ↔
      (∀ x ∈ l, (f x).Nodup) ∧ ∀ x ∈ l, ∀ y ∈ l, ∀ z, z ∈ f x → z ∈ f y → x = y := by
  rw [List.nodup_flatMap]
  refine and_congr_right fun _ => ⟨fun hpairs x hx y hy z hzx hzy => ?_, fun hpairs => ?_⟩
  · by_contra hne
    have hsymm : Std.Symm (Function.onFun List.Disjoint f) := ⟨fun _ _ hxy _ hzy hzx => hxy hzx hzy⟩
    exact hpairs.forall hx hy hne hzx hzy
  · refine hl.pairwise_of_forall_ne fun x hx y hy hne => List.disjoint_left.2 fun z hzx hzy => ?_
    exact hne (hpairs x hx y hy z hzx hzy)

namespace Hierarchy

/-! ## What a class draws on -/

/-- The types that the class of `t` draws on, in the order in which it writes their properties. -/
def sources (h : Hierarchy) (t : ContentType) : List ContentType :=
  t :: sortBy ContentType.className (h.implementedBy t)

/-- How the class of `t` comes by the values of the properties of `u`, which it draws on. -/
def deliveryOf (h : Hierarchy) (t u : ContentType) : Delivery :=
  if u = t then if t.isMixin then .ownGetter t else .value
  else if h.isGenerated u then .getterOf u else .value

/-- The members that the class of `t` has for the properties of `u`. -/
def membersFrom (h : Hierarchy) (t u : ContentType) : List Member :=
  u.sortedProperties.map fun p => ⟨p, h.deliveryOf t u⟩

/-- A class draws on the type itself and on the mixins that it implements. -/
theorem mem_sources_iff {h : Hierarchy} {t u : ContentType} :
    u ∈ h.sources t ↔ h.Implements t u := by
  rw [sources, List.mem_cons, (sortBy_perm _ _).mem_iff, Implements]

/-- A class draws on each type once. -/
theorem Sound.nodup_sources {h : Hierarchy} (hs : h.Sound) (t : ContentType) :
    (h.sources t).Nodup := by
  have hperm : (sortBy ContentType.className (h.implementedBy t)).Perm (h.implementedBy t) :=
    sortBy_perm _ _
  refine List.nodup_cons.2 ⟨fun ht => ?_, hperm.nodup_iff.2 (h.implementedBy_nodup t)⟩
  exact hs.not_mem_implementedBy t (hperm.mem_iff.1 ht)

/-- The members of a class are those for the properties of the types that it draws on. -/
theorem Sound.members_eq {h : Hierarchy} (hs : h.Sound) (t : ContentType) :
    h.members t = (h.sources t).flatMap (h.membersFrom t) := by
  have hown : t.ownMembers = h.membersFrom t t := by
    rw [ContentType.ownMembers, membersFrom, deliveryOf, if_pos rfl]
  have hmixins : h.implementedMembers t =
      (sortBy ContentType.className (h.implementedBy t)).flatMap (h.membersFrom t) := by
    unfold implementedMembers
    refine List.flatMap_congr fun mixin hmixin => ?_
    have hne : mixin ≠ t := by
      rintro rfl
      exact hs.not_mem_implementedBy mixin ((sortBy_perm _ _).mem_iff.1 hmixin)
    rw [membersFrom, deliveryOf, if_neg hne]
  rw [members, hown, hmixins, sources, List.flatMap_cons]

/-! ## Active members -/

/-- The members of a class that do not stand inside a comment. -/
def activeMembers (h : Hierarchy) (t : ContentType) : List Member :=
  (h.members t).filter fun member => !member.isDisabled

/-- The names of these members, in the order in which they are written. -/
def activeNames (h : Hierarchy) (t : ContentType) : List String :=
  (h.activeMembers t).map fun member => member.property.memberName

/-- The class of `t` has an active member for the property `p` of `u`: it draws on `u`, and nothing
keeps the property from being implemented, or else it asks the getter in another class. -/
def Activates (h : Hierarchy) (t u : ContentType) (p : Property) : Prop :=
  h.Implements t u ∧ p ∈ u.activeProperties ∧ (p.errors = [] ∨ u ≠ t ∧ h.isGenerated u)

/-- No two of the types that the class of `t` draws on give it active members of the same name, and
no mixin gives it one that is named like the class. -/
structure NamesApart (h : Hierarchy) (t : ContentType) : Prop where
  /-- Active members of the same name are those of one type. -/
  sources : ∀ u v p q, h.Activates t u p → h.Activates t v q → p.memberName = q.memberName → u = v
  /-- No active member of a mixin is named like the class. -/
  mixins : ∀ u p, h.Activates t u p → u ≠ t → p.memberName ≠ t.className

/-- The names of the active members that the class of `t` has for the properties of `u`. -/
def namesFrom (h : Hierarchy) (t u : ContentType) : List String :=
  ((h.membersFrom t u).filter fun member => !member.isDisabled).map
    fun member => member.property.memberName

/-- A member stands inside a comment if its property has an error, unless it asks the getter in
another class. -/
theorem isDisabled_deliveryOf {h : Hierarchy} {t u : ContentType} {p : Property} :
    (⟨p, h.deliveryOf t u⟩ : Member).isDisabled = false ↔
      p.errors = [] ∨ u ≠ t ∧ h.isGenerated u := by
  unfold Member.isDisabled deliveryOf
  by_cases hut : u = t
  · cases t.isMixin <;> simp [hut]
  · cases h.isGenerated u <;> simp [hut]

/-- The names from a type are those of its properties that have active members. -/
theorem mem_namesFrom_iff {h : Hierarchy} {t u : ContentType} (hu : u ∈ h.sources t)
    {name : String} : name ∈ h.namesFrom t u ↔ ∃ p, h.Activates t u p ∧ p.memberName = name := by
  simp only [namesFrom, membersFrom, List.mem_map, List.mem_filter, Bool.not_eq_true',
    ContentType.mem_sortedProperties_iff, Activates, mem_sources_iff.1 hu, true_and]
  constructor
  · rintro ⟨_, ⟨⟨p, hp, rfl⟩, henabled⟩, hname⟩
    exact ⟨p, ⟨hp, isDisabled_deliveryOf.1 henabled⟩, hname⟩
  · rintro ⟨p, ⟨hp, henabled⟩, hname⟩
    exact ⟨_, ⟨⟨p, hp, rfl⟩, isDisabled_deliveryOf.2 henabled⟩, hname⟩

/-- The names of the active members of a class are those from the types that it draws on. -/
theorem Sound.activeNames_eq {h : Hierarchy} (hs : h.Sound) (t : ContentType) :
    h.activeNames t = (h.sources t).flatMap (h.namesFrom t) := by
  rw [activeNames, activeMembers, hs.members_eq, List.filter_flatMap, List.map_flatMap]
  rfl

/-- The names of the active members of a class are those of the properties that it activates. -/
theorem Sound.mem_activeNames_iff {h : Hierarchy} (hs : h.Sound) {t : ContentType}
    {name : String} :
    name ∈ h.activeNames t ↔ ∃ u p, h.Activates t u p ∧ p.memberName = name := by
  rw [hs.activeNames_eq, List.mem_flatMap]
  constructor
  · rintro ⟨u, hu, hname⟩
    exact ⟨u, (mem_namesFrom_iff hu).1 hname⟩
  · rintro ⟨u, p, hp, hname⟩
    have hu : u ∈ h.sources t := mem_sources_iff.2 hp.1
    exact ⟨u, hu, (mem_namesFrom_iff hu).2 ⟨p, hp, hname⟩⟩

section Accepted

variable {mode : Mode} {types : List ContentType} {h : Hierarchy}
  (hok : ofTypes mode types = .ok h) {t : ContentType}
include hok

/-- The names from one type differ from each other. -/
theorem nodup_namesFrom {u : ContentType} (hu : u ∈ h.types) : (h.namesFrom t u).Nodup := by
  have hsub : (h.namesFrom t u).Sublist
      ((h.membersFrom t u).map fun member => member.property.memberName) :=
    List.filter_sublist.map _
  have hall : ((h.membersFrom t u).map fun member => member.property.memberName) =
      u.sortedProperties.map Property.memberName := by
    rw [membersFrom, List.map_map]
    rfl
  rw [hall] at hsub
  have hperm : (u.sortedProperties.map Property.memberName).Perm
      (u.activeProperties.map Property.memberName) := (sortBy_perm _ _).map _
  exact hsub.nodup (hperm.nodup_iff.2 (nodup_memberNames hok hu))

/-- No name from the type itself is that of the class. -/
theorem className_notMem_namesFrom (ht : t ∈ h.types) : t.className ∉ h.namesFrom t t := by
  intro hname
  obtain ⟨p, ⟨-, hp, henabled⟩, hclash⟩ := (mem_namesFrom_iff List.mem_cons_self).1 hname
  rcases henabled with herrors | ⟨hne, -⟩
  · exact errors_ne_nil_of_clash hok ht hp hclash herrors
  · exact hne rfl

/-- The active members of a class differ in name from each other and from the class exactly if those
of the types that it draws on are apart. -/
theorem activeNames_sound_iff (ht : t ∈ h.types) :
    (h.activeNames t).Nodup ∧ t.className ∉ h.activeNames t ↔ h.NamesApart t := by
  have hs := sound_of_ofTypes hok
  have hnames : ∀ u ∈ h.sources t, (h.namesFrom t u).Nodup := fun u hu =>
    nodup_namesFrom hok (h.graph_closed.mem_of_reaches ht (mem_sources_iff.1 hu).reaches)
  rw [hs.mem_activeNames_iff, hs.activeNames_eq, nodup_flatMap_iff_of_nodup (hs.nodup_sources t)]
  constructor
  · rintro ⟨⟨-, hapart⟩, hclass⟩
    refine ⟨fun u v p q hp hq hname => ?_, fun u p hp _ hname => hclass ⟨u, p, hp, hname⟩⟩
    have hu : u ∈ h.sources t := mem_sources_iff.2 hp.1
    have hv : v ∈ h.sources t := mem_sources_iff.2 hq.1
    exact hapart u hu v hv _ ((mem_namesFrom_iff hu).2 ⟨p, hp, rfl⟩)
      ((mem_namesFrom_iff hv).2 ⟨q, hq, hname.symm⟩)
  · rintro ⟨hsources, hmixins⟩
    refine ⟨⟨hnames, fun u hu v hv name hnu hnv => ?_⟩, ?_⟩
    · obtain ⟨p, hp, rfl⟩ := (mem_namesFrom_iff hu).1 hnu
      obtain ⟨q, hq, hname⟩ := (mem_namesFrom_iff hv).1 hnv
      exact hsources u v p q hp hq hname.symm
    · rintro ⟨u, p, hp, hname⟩
      by_cases hut : u = t
      · -- The type's own properties have been checked against its name.
        subst hut
        exact className_notMem_namesFrom hok ht
          ((mem_namesFrom_iff List.mem_cons_self).2 ⟨p, hp, hname⟩)
      · exact hmixins u p hp hut hname

end Accepted

end Hierarchy

namespace Writer

/-- Of an accepted hierarchy, the class of a type declares each of its active members, and writes
the others inside comments. From one type alone, active members differ in name from each other, and
the type's own differ from the class. All of them do exactly if those of the types that the class
draws on are apart. -/
theorem activeNames_nodup_iff {mode : Mode} {types : List ContentType} {w : Writer}
    (hok : Hierarchy.ofTypes mode types = .ok w.hierarchy) {t : ContentType}
    (ht : t ∈ w.hierarchy.types) :
    (∀ member ∈ w.hierarchy.members t,
      (member.isDisabled = false →
        w.Declares (w.classOf t) "\t\tpublic " member.property " => ") ∧
      (member.isDisabled →
        (w.classOf t).Holds (Draft.concat [Comment.openBlock member.property.errors,
          w.memberCode member, Comment.closeBlock]))) ∧
    (∀ u, w.hierarchy.Implements t u → (w.hierarchy.namesFrom t u).Nodup) ∧
    t.className ∉ w.hierarchy.namesFrom t t ∧
    ((w.hierarchy.activeNames t).Nodup ∧ t.className ∉ w.hierarchy.activeNames t ↔
      w.hierarchy.NamesApart t) := by
  refine ⟨fun member hmember => ⟨w.classOf_declares hmember, fun hdisabled => ?_⟩, fun u hu => ?_,
    Hierarchy.className_notMem_namesFrom hok ht, Hierarchy.activeNames_sound_iff hok ht⟩
  · refine (w.classOf_holds_member hmember).trans ?_
    unfold Writer.member
    rw [if_pos hdisabled]
    exact Draft.holds_concat (by simp)
  · exact Hierarchy.nodup_namesFrom hok (w.hierarchy.graph_closed.mem_of_reaches ht hu.reaches)

/-- A page with a title, composed of a mixin. -/
def titledPage : ContentType :=
  { id := 2, aliasName := "page", className := "Page", itemType := .content,
    mixinAliases := ["seo"],
    properties := [{ aliasName := "title", memberName := "Title", type := .string }] }

/-- The page and its mixin, with a property of the given member name. -/
def titledTypes (memberName : String) : List ContentType :=
  [{ id := 1, aliasName := "seo", className := "Seo", itemType := .content, usage := .mixin,
      properties := [{ aliasName := "seoTitle", memberName, type := .string }] }, titledPage]

/-- The writer of the models of both, in a namespace without imports. -/
def titledWriter (memberName : String) : Writer :=
  ⟨⟨.build [] ⟨titledTypes memberName⟩ ⟨"Site"⟩, ⟨titledTypes memberName⟩, ⟨⟨"Site"⟩, []⟩⟩, {}⟩

/-- With a name of its own, the property of the mixin is apart from the title of the page. -/
theorem seoTitle_apart :
    Hierarchy.ofTypes .sourceCode (titledTypes "SeoTitle") =
        .ok (titledWriter "SeoTitle").hierarchy ∧
      (titledWriter "SeoTitle").hierarchy.activeNames titledPage =
        ["Title", "SeoTitle"] ∧
      (titledWriter "SeoTitle").hierarchy.NamesApart titledPage := by
  have hok : Hierarchy.ofTypes .sourceCode (titledTypes "SeoTitle") =
      .ok (titledWriter "SeoTitle").hierarchy :=
    Hierarchy.ofTypes_sourceCode_eq_ok (by decide +kernel)
  have hnames : (titledWriter "SeoTitle").hierarchy.activeNames titledPage =
      ["Title", "SeoTitle"] := by decide +kernel
  obtain ⟨-, -, -, hiff⟩ := activeNames_nodup_iff hok
    (show titledPage ∈ titledTypes "SeoTitle" by decide)
  refine ⟨hok, hnames, hiff.1 ?_⟩
  rw [hnames]
  decide

/-- A property of the mixin that is named like the title gives the page a second member of that
name, and one that is named like the page a member that is named like its class. The types are
accepted in either mode, and the members are declared. -/
theorem title_declared_twice :
    (∀ mode, ∀ name ∈ ["Title", "Page"],
      Hierarchy.ofTypes mode (titledTypes name) = .ok (titledWriter name).hierarchy) ∧
    titledPage ∈ (titledWriter "Title").hierarchy.generatedTypes ∧
    (titledWriter "Title").hierarchy.activeNames titledPage = ["Title", "Title"] ∧
    titledPage ∈ (titledWriter "Page").hierarchy.generatedTypes ∧
    (titledWriter "Page").hierarchy.activeNames titledPage = ["Title", "Page"] ∧
    ∀ name ∈ ["Title", "Page"],
      ∃ text, ((titledWriter name).classOf titledPage).toExcept = .ok text ∧
        ∀ member ∈ (titledWriter name).hierarchy.activeMembers titledPage,
          ("\t\tpublic string " ++ member.property.memberName ++ " => ").toList <:+:
            text.toList := by
  have hfault : ∀ name ∈ ["Title", "Page"], ∀ mode ∈ Mode.all,
      Hierarchy.fault? mode (titledTypes name) = none ∧
        (titledTypes name).map (Hierarchy.noteClashes mode) = titledTypes name := by
    decide +kernel
  have hstring : ∀ name ∈ ["Title", "Page"],
      ∀ member ∈ (titledWriter name).hierarchy.members titledPage,
        (titledWriter name).resolver.resolve member.property.type = .ok "string" := by
    decide +kernel
  refine ⟨fun mode name hname => ?_, by decide +kernel, by decide +kernel, by decide +kernel,
    by decide +kernel, fun name hname => ?_⟩
  · have hmode : mode ∈ Mode.all := by cases mode <;> decide
    obtain ⟨hnone, hkept⟩ := hfault name hname mode hmode
    unfold Hierarchy.ofTypes
    rw [hnone, hkept]
    rfl
  · obtain ⟨text, htext⟩ := exists_classOf_iff.2 fun member hmember =>
      ⟨"string", hstring name hname member hmember⟩
    refine ⟨text, htext, fun member hactive => ?_⟩
    obtain ⟨hmember, henabled⟩ := List.mem_filter.1 hactive
    have hdeclares := (titledWriter name).classOf_declares hmember (by simpa using henabled)
    obtain ⟨type, htype, hpart⟩ := hdeclares text htext
    obtain rfl : "string" = type :=
      Except.ok.inj ((hstring name hname member hmember).symm.trans htype)
    simpa [String.append_assoc] using hpart

end Writer

end ContentModels
