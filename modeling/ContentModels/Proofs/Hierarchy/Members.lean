import ContentModels.Proofs.Hierarchy.ClassInterfaces

/-!
# The members of classes

Which members a class has for the properties of a mixin: those of the mixin's own class ask the
getter beside them, and those of the classes that implement it ask that getter too
(`mem_members_of_mixin_iff`). A class that declares the interface of a mixin reaches it
(`DeclaresInterface.mixin`), and of the classes on a base chain, one alone has the members of a
mixin that the first reaches (`BaseChain.exists_unique_member`).
-/

namespace ContentModels

/-- The mixin that a member is a property of, where the member asks a getter for its value. -/
def Member.mixin? (m : Member) : Option ContentType :=
  match m.delivery with
  | .value => none
  | .ownGetter owner => some owner
  | .getterOf owner => some owner

/-- A member is not disabled if nothing keeps its property from being implemented. -/
theorem Member.isDisabled_eq_false {m : Member} (h : m.property.errors = []) :
    m.isDisabled = false := by
  unfold Member.isDisabled
  rw [h]
  split <;> rfl

/-- The sorted properties are the active ones. -/
theorem ContentType.mem_sortedProperties_iff {t : ContentType} {p : Property} :
    p ∈ t.sortedProperties ↔ p ∈ t.activeProperties :=
  (sortBy_perm Property.memberName t.activeProperties).mem_iff

namespace Hierarchy

/-! ## Member names -/

/-- Notes change no member name. -/
theorem map_memberName_noteClashes (mode : Mode) (t : ContentType) :
    (noteClashes mode t).activeProperties.map Property.memberName =
      t.activeProperties.map Property.memberName := by
  cases mode with
  | sourceCode => rfl
  | inMemory =>
    unfold noteClashes ContentType.activeProperties
    dsimp only
    rw [List.filter_map, List.map_map]
    congr 1
    · funext p
      rw [Function.comp_apply]
      split <;> rfl
    · congr 1
      funext p
      rw [Function.comp_apply]
      split <;> rfl

section Accepted

variable {mode : Mode} {types : List ContentType} {h : Hierarchy}
  (hok : ofTypes mode types = .ok h) {t : ContentType} (ht : t ∈ h.types)
include hok ht

/-- Of an accepted hierarchy, no two active properties of a type share their member name. -/
theorem nodup_memberNames : (t.activeProperties.map Property.memberName).Nodup := by
  obtain ⟨hacceptable, rfl⟩ := ofTypes_eq_ok_iff.1 hok
  obtain ⟨u, hu, rfl⟩ := List.mem_map.1 ht
  rw [map_memberName_noteClashes]
  exact hacceptable.memberNames u hu

/-- Of an accepted hierarchy, member names tell the active properties of a type apart. -/
theorem eq_of_memberName_eq {p q : Property} (hp : p ∈ t.activeProperties)
    (hq : q ∈ t.activeProperties) (hname : p.memberName = q.memberName) : p = q :=
  List.inj_on_of_nodup_map (nodup_memberNames hok ht) hp hq hname

/-- Of an accepted hierarchy, an active property that is named like its type has a note. -/
theorem errors_ne_nil_of_clash {p : Property} (hp : p ∈ t.activeProperties)
    (hname : p.memberName = t.className) : p.errors ≠ [] := by
  obtain ⟨hacceptable, rfl⟩ := ofTypes_eq_ok_iff.1 hok
  obtain ⟨u, hu, rfl⟩ := List.mem_map.1 ht
  obtain ⟨hmem, hactive⟩ := ContentType.mem_activeProperties_iff.1 hp
  cases mode with
  | sourceCode => exact absurd hname (hacceptable.clashes rfl u hu p hmem hactive)
  | inMemory =>
    obtain ⟨q, -, rfl⟩ := List.mem_map.1 hmem
    by_cases hclash : (!q.ignored && q.memberName = u.className) = true
    · rw [if_pos hclash]
      simp [Property.addError]
    · rw [if_neg hclash] at hactive hname
      have hown : q.memberName = u.className := hname
      simp [hactive, hown] at hclash

end Accepted

/-! ## The members of a class -/

/-- A class has its own properties, and those of the mixins that it implements. -/
theorem mem_members_iff {h : Hierarchy} {t : ContentType} {member : Member} :
    member ∈ h.members t ↔
      (member.property ∈ t.activeProperties ∧
          member.delivery = if t.isMixin then .ownGetter t else .value) ∨
        ∃ m ∈ h.implementedBy t, member.property ∈ m.activeProperties ∧
          member.delivery = if h.isGenerated m then .getterOf m else .value := by
  obtain ⟨p, delivery⟩ := member
  simp only [members, ContentType.ownMembers, implementedMembers, List.mem_append, List.mem_map,
    List.mem_flatMap, (sortBy_perm _ _).mem_iff, ContentType.mem_sortedProperties_iff,
    Member.mk.injEq]
  constructor
  · rintro (⟨q, hq, rfl, hdelivery⟩ | ⟨m, hm, q, hq, rfl, hdelivery⟩)
    · exact .inl ⟨hq, hdelivery.symm⟩
    · exact .inr ⟨m, hm, hq, hdelivery.symm⟩
  · rintro (⟨hp, hdelivery⟩ | ⟨m, hm, hp, hdelivery⟩)
    · exact .inl ⟨p, hp, rfl, hdelivery.symm⟩
    · exact .inr ⟨m, hm, p, hp, rfl, hdelivery.symm⟩

/-- How the class of `t` comes by the values of a mixin's properties: by the getter beside them if
it is the class of the mixin, and by the getter there if it is another. -/
def mixinDelivery (t m : ContentType) : Delivery := if m = t then .ownGetter m else .getterOf m

/-- In either way, the member is for a property of the mixin. -/
theorem mixin?_mixinDelivery (t m : ContentType) (p : Property) :
    (⟨p, mixinDelivery t m⟩ : Member).mixin? = some m := by
  unfold Member.mixin? mixinDelivery
  by_cases hmt : m = t <;> simp only [hmt, if_true, if_false]

/-- The members for the properties of a generated mixin are in the classes that implement it. -/
theorem mem_members_of_mixin_iff {h : Hierarchy} (hs : h.Sound) {t m : ContentType}
    (hmix : m.isMixin) (hgen : h.isGenerated m) {member : Member} :
    member ∈ h.members t ∧ member.mixin? = some m ↔
      h.Implements t m ∧ member.property ∈ m.activeProperties ∧
        member.delivery = mixinDelivery t m := by
  have hirrefl : m ∈ h.implementedBy t → m ≠ t := by
    rintro hm rfl
    exact hs.not_mem_implementedBy m hm
  rw [mem_members_iff]
  unfold Member.mixin? mixinDelivery Implements
  constructor
  · rintro ⟨⟨hp, hdelivery⟩ | ⟨n, hn, hp, hdelivery⟩, howner⟩
    · -- The type's own properties have getters if it is a mixin, and then those are its own.
      cases hown : t.isMixin with
      | true =>
        rw [hown, if_pos rfl] at hdelivery
        rw [hdelivery] at howner
        obtain rfl := Option.some.inj howner
        exact ⟨.inl rfl, hp, by rw [hdelivery, if_pos rfl]⟩
      | false =>
        rw [hown, if_neg Bool.false_ne_true] at hdelivery
        rw [hdelivery] at howner
        cases howner
    · -- Those of a mixin have getters if a class is generated for it.
      cases hmodel : h.isGenerated n with
      | true =>
        rw [hmodel, if_pos rfl] at hdelivery
        rw [hdelivery] at howner
        obtain rfl := Option.some.inj howner
        exact ⟨.inr hn, hp, by rw [hdelivery, if_neg (hirrefl hn)]⟩
      | false =>
        rw [hmodel, if_neg Bool.false_ne_true] at hdelivery
        rw [hdelivery] at howner
        cases howner
  · rintro ⟨rfl | hm, hp, hdelivery⟩
    · rw [if_pos rfl] at hdelivery
      exact ⟨.inl ⟨hp, by rw [hdelivery, if_pos hmix]⟩, by rw [hdelivery]⟩
    · rw [if_neg (hirrefl hm)] at hdelivery
      exact ⟨.inr ⟨m, hm, hp, by rw [hdelivery, if_pos hgen]⟩, by rw [hdelivery]⟩

/-! ## The interfaces that a class declares -/

/-- The interface of `m` is one that the header of the class of `t` names, or that such interfaces
extend, directly or through others. -/
def DeclaresInterface (h : Hierarchy) (t m : ContentType) : Prop :=
  ∃ g, .modelInterface g ∈ h.classSupertypes t ∧ Relation.ReflTransGen h.Extends g m

/-- What stands in the place of a mixin is one. -/
theorem isMixin_of_liftStep {h : Hierarchy} (hs : h.Sound) {d g : ContentType} (hmix : d.isMixin)
    (hd : d ∈ h.types) (hdg : Relation.ReflTransGen h.LiftStep d g) : g.isMixin := by
  induction hdg with
  | refl => exact hmix
  | tail hway hstep _ =>
    exact hs.isMixin (h.graph_closed.mem_of_reaches hd (reaches_of_liftStep hway)) hstep.2

/-- What stands for a mixin of a type is one. -/
theorem Lifts.isMixin {h : Hierarchy} (hs : h.Sound) {t g : ContentType} (ht : t ∈ h.types)
    (hg : h.Lifts t g) : g.isMixin := by
  obtain ⟨-, -, d, hd, hdg⟩ := hg
  exact isMixin_of_liftStep hs (hs.isMixin ht hd) (mem_of_mem_mixinsOf hd) hdg

/-- The interfaces that a generated class declares are those of generated mixins that its type
reaches. -/
theorem DeclaresInterface.mixin {h : Hierarchy} (hs : h.Sound) {t m : ContentType}
    (ht : t ∈ h.types) (hgen : h.isGenerated t) (hm : h.DeclaresInterface t m) :
    h.graph.Reaches t m ∧ m.isMixin ∧ h.isGenerated m := by
  obtain ⟨g, hg, hgm⟩ := hm
  induction hgm with
  | refl =>
    rcases modelInterface_mem_classSupertypes_iff.1 hg with ⟨hmix, rfl⟩ | ⟨-, hlifts⟩
    · exact ⟨Digraph.Reaches.refl g, hmix, hgen⟩
    · exact ⟨hlifts.reaches, hlifts.isMixin hs ht, hlifts.1⟩
  | @tail m n _ hstep ih =>
    have hreaches := ih.1.trans hstep.reaches
    rcases extends_iff.1 hstep with ⟨-, hmix, hmodel⟩ | hlifts
    · exact ⟨hreaches, hmix, hmodel⟩
    · have hmem := h.graph_closed.mem_of_reaches ht ih.1
      exact ⟨hreaches, hlifts.isMixin hs hmem, hlifts.1⟩

/-! ## One member on the chain -/

/-- Of the classes on a base chain whose first type reaches a generated mixin, one has a member for
an active property of the mixin, and no other has one of that mixin and name. -/
theorem BaseChain.exists_unique_member {mode : Mode} {types : List ContentType} {h : Hierarchy}
    (hok : ofTypes mode types = .ok h) {t m : ContentType} {chain : List ContentType}
    (ht : t ∈ h.types) (hchain : h.BaseChain t chain) (hmix : m.isMixin) (hgen : h.isGenerated m)
    (htm : h.graph.Reaches t m) {p : Property} (hp : p ∈ m.activeProperties) :
    ∃ (i : Nat) (u : ContentType), chain[i]? = some u ∧
      (⟨p, mixinDelivery u m⟩ : Member) ∈ h.members u ∧
      ∀ (j : Nat) (v : ContentType) (other : Member), chain[j]? = some v → other ∈ h.members v →
        other.mixin? = some m → other.property.memberName = p.memberName →
          j = i ∧ other = ⟨p, mixinDelivery u m⟩ := by
  have hs := sound_of_ofTypes hok
  have hm : m ∈ h.types := h.graph_closed.mem_of_reaches ht htm
  obtain ⟨i, u, hi, hu, hunique⟩ := hchain.exists_unique_implements hs ht hmix htm
  refine ⟨i, u, hi, ((mem_members_of_mixin_iff hs hmix hgen).2 ⟨hu, hp, rfl⟩).1, ?_⟩
  intro j v ⟨q, delivery⟩ hj hother hmixin hname
  -- A class that has such a member implements the mixin, so it is the same one.
  obtain ⟨hv, hq, hdelivery⟩ := (mem_members_of_mixin_iff hs hmix hgen).1 ⟨hother, hmixin⟩
  obtain rfl := hunique j v hj hv
  obtain rfl : u = v := Option.some.inj (hi.symm.trans hj)
  have hsame : q = p := eq_of_memberName_eq hok hm hq hp hname
  exact ⟨rfl, by rw [hsame, show delivery = _ from hdelivery]⟩

end Hierarchy

end ContentModels
