import ContentModels.Hierarchy.Validity
import ContentModels.Proofs.Digraph.Acyclicity
import ContentModels.Proofs.Hierarchy.Links
import Mathlib.Data.List.Forall2

/-!
# Which content types are accepted

`Hierarchy.ofTypes` accepts a list of content types exactly if it is `Acceptable`: keys and
identities tell the types apart, member names tell the properties of a type apart, links lead
somewhere and the mixins are mixins, no type is a supertype of itself, and elements have elements as
supertypes (`ofTypes_accepts_iff`). What is accepted are the types that were given, in their order,
with a note on the properties that are named like their type where models are compiled in memory.

Each check is shown to find nothing exactly if its part of `Acceptable` holds. The links are checked
when the notes are there already, so that part is carried over: `map_iff` lemmas say that what
changes the properties only changes no link.
-/

namespace ContentModels

namespace ContentType

/-- Other types may be composed of a type unless it is an ordinary one. -/
theorem isMixin_iff {t : ContentType} : t.isMixin ↔ t.usage ≠ .ordinary := decide_eq_true_iff

/-- Elements are told by their item type. -/
theorem isElement_iff {t : ContentType} : t.isElement ↔ t.itemType = .element := decide_eq_true_iff

/-- The active properties are those that are not ignored. -/
theorem mem_activeProperties_iff {t : ContentType} {p : Property} :
    p ∈ t.activeProperties ↔ p ∈ t.properties ∧ p.ignored = false := by
  simp [activeProperties]

end ContentType

namespace Hierarchy

/-! ## What is acceptable -/

/-- The links of a hierarchy are sound. -/
structure Linked (h : Hierarchy) : Prop where
  /-- A type that says it has a base has one. -/
  bases : ∀ t ∈ h.types, t.NamesBase → ∃ b, h.HasBase t b
  /-- Each mixin alias means a type. -/
  mixins : ∀ t ∈ h.types, ∀ aliasName ∈ t.mixinAliases, ∃ m, h.Means t aliasName m
  /-- The mixins of a type are there for others to be composed of. -/
  isMixin : ∀ t ∈ h.types, ∀ m, h.HasMixin t m → m.usage ≠ .ordinary
  /-- No type is a supertype of itself, directly or through others. -/
  acyclic : ∀ t ∈ h.types, ¬ Relation.TransGen h.HasSupertype t t
  /-- The supertypes of elements are elements. -/
  elements : ∀ t ∈ h.types, t.itemType = .element → ∀ u, h.HasSupertype t u → u.itemType = .element

/-- The types of a hierarchy can be modelled in the given mode. -/
structure Acceptable (mode : Mode) (h : Hierarchy) : Prop where
  /-- No two types share alias and item type. -/
  keys : (h.types.map ContentType.key).Nodup
  /-- No two types share their identity. -/
  ids : (h.types.map ContentType.id).Nodup
  /-- No two properties of a type that are not ignored share their member name. -/
  memberNames : ∀ t ∈ h.types,
    ((t.properties.filter fun p => !p.ignored).map Property.memberName).Nodup
  /-- In source files, no property that is not ignored is named like its type. -/
  clashes : mode = .sourceCode →
    ∀ t ∈ h.types, ∀ p ∈ t.properties, p.ignored = false → p.memberName ≠ t.className
  /-- The links are sound. -/
  linked : h.Linked

/-- The type `u` is `t` as it is accepted: in memory, each property named like the type, and not
ignored, has one more note behind those that it had, and nothing else differs. -/
def AcceptedAs (mode : Mode) (t u : ContentType) : Prop :=
  u = { t with properties := u.properties } ∧
    List.Forall₂ (fun p q =>
      q = if mode = .inMemory ∧ p.ignored = false ∧ p.memberName = t.className then
          { p with errors := p.errors ++ [clashNote t.className] }
        else p) t.properties u.properties

/-! ## The checks of one type -/

/-- No element is found exactly if there is no repetition. -/
theorem firstRepeat?_eq_none_iff {α : Type} [DecidableEq α] {seen l : List α} :
    firstRepeat? seen l = none ↔ l.Nodup ∧ ∀ x ∈ l, x ∉ seen := by
  induction l generalizing seen with
  | nil => simp [firstRepeat?]
  | cons x rest ih =>
    unfold firstRepeat?
    split
    · rename_i hx
      simp [hx]
    · rename_i hx
      rw [ih, List.nodup_cons, List.forall_mem_cons]
      constructor
      · rintro ⟨hrest, hseen⟩
        refine ⟨⟨fun hmem => hseen x hmem List.mem_cons_self, hrest⟩, hx, fun y hy hmem => ?_⟩
        exact hseen y hy (List.mem_cons_of_mem x hmem)
      · rintro ⟨⟨hxrest, hrest⟩, -, hseen⟩
        refine ⟨hrest, fun y hy hmem => ?_⟩
        rcases List.mem_cons.1 hmem with rfl | hmem
        · exact hxrest hy
        · exact hseen y hy hmem

/-- The identities are found to be sound exactly if keys and identities tell the types apart, from
each other and from the earlier ones. -/
theorem identityFault?_eq_none_iff {earlier types : List ContentType} :
    identityFault? earlier types = none ↔
      (types.map ContentType.key).Nodup ∧ (types.map ContentType.id).Nodup ∧
        ∀ t ∈ types, ∀ u ∈ earlier, u.key ≠ t.key ∧ u.id ≠ t.id := by
  induction types generalizing earlier with
  | nil => simp [identityFault?]
  | cons t rest ih =>
    have hkey : (earlier.any fun u => u.aliasName = t.aliasName && u.itemType = t.itemType) = true ↔
        ∃ u ∈ earlier, u.key = t.key := by
      simp [ContentType.key]
    have hid : (earlier.any fun u => u.id = t.id) = true ↔ ∃ u ∈ earlier, u.id = t.id := by
      simp
    unfold identityFault?
    split
    · -- The key is taken.
      rename_i h
      obtain ⟨u, hu, huk⟩ := hkey.1 h
      simp only [reduceCtorEq, false_iff, not_and]
      exact fun _ _ hall => (hall t List.mem_cons_self u hu).1 huk
    · split
      · -- The key is free, and the identity is taken.
        rename_i h
        obtain ⟨u, hu, hui⟩ := hid.1 h
        simp only [reduceCtorEq, false_iff, not_and]
        exact fun _ _ hall => (hall t List.mem_cons_self u hu).2 hui
      · -- Both are free, and the other types are checked against this one too.
        rename_i hk hi
        rw [hkey] at hk
        rw [hid] at hi
        rw [ih, List.map_cons, List.map_cons, List.nodup_cons, List.nodup_cons,
          List.forall_mem_cons]
        constructor
        · rintro ⟨hkeys, hids, hall⟩
          refine ⟨⟨?_, hkeys⟩, ⟨?_, hids⟩, fun u hu => ⟨?_, ?_⟩, fun v hv u hu => ?_⟩
          · intro hmem
            obtain ⟨v, hv, e⟩ := List.mem_map.1 hmem
            exact (hall v hv t List.mem_cons_self).1 e.symm
          · intro hmem
            obtain ⟨v, hv, e⟩ := List.mem_map.1 hmem
            exact (hall v hv t List.mem_cons_self).2 e.symm
          · exact fun e => hk ⟨u, hu, e⟩
          · exact fun e => hi ⟨u, hu, e⟩
          · exact hall v hv u (List.mem_cons_of_mem t hu)
        · rintro ⟨⟨htk, hkeys⟩, ⟨hti, hids⟩, -, hall⟩
          refine ⟨hkeys, hids, fun v hv u hu => ?_⟩
          rcases List.mem_cons.1 hu with rfl | hu
          · exact ⟨fun e => htk (e ▸ List.mem_map_of_mem hv),
              fun e => hti (e ▸ List.mem_map_of_mem hv)⟩
          · exact hall v hv u hu

/-- The properties of a type are found to be sound exactly if their names differ from each other
and, in source files, from that of the type. -/
theorem propertyFault?_eq_none_iff {mode : Mode} {t : ContentType} :
    propertyFault? mode t = none ↔
      (t.activeProperties.map Property.memberName).Nodup ∧
        (mode = .sourceCode → ∀ p ∈ t.activeProperties, p.memberName ≠ t.className) := by
  have hrepeat : firstRepeat? [] (t.activeProperties.map Property.memberName) = none ↔ _ :=
    firstRepeat?_eq_none_iff
  rw [propertyFault?]
  split
  · rename_i name hname
    rw [hname] at hrepeat
    simp_all
  · rename_i hname
    rw [hname] at hrepeat
    simp_all

/-- The base of a type is found to be sound exactly if it can be looked up where the type names
one. -/
theorem baseFault?_eq_none_iff {h : Hierarchy} {t : ContentType} :
    h.baseFault? t = none ↔ (t.NamesBase → ∃ b, h.baseOf? t = some b) := by
  unfold baseFault? baseOf? ContentType.NamesBase
  cases t.baseAlias with
  | some base =>
    rcases hmeant : h.meant t.itemType base with _ | ⟨b, _ | ⟨c, l⟩⟩ <;>
      simp [sole?, hmeant]
  | none =>
    by_cases hparent : t.parentId = 0
    · simp [hparent]
    · cases h.withId? t.parentId <;> simp [hparent]

/-- A mixin of a type is found to be sound exactly if its alias has one meaning, which is a
mixin. -/
theorem mixinFault?_eq_none_iff {h : Hierarchy} {t : ContentType} {mixin : String} :
    h.mixinFault? t mixin = none ↔
      ∃ m, sole? (h.meant t.itemType mixin) = some m ∧ m.isMixin := by
  unfold mixinFault?
  rcases h.meant t.itemType mixin with _ | ⟨m, _ | ⟨n, l⟩⟩ <;> simp [sole?]

/-- A type is found to have supertypes of its kind exactly if all of them are elements where it is
one. -/
theorem elementFault?_eq_none_iff {h : Hierarchy} {t : ContentType} :
    h.elementFault? t = none ↔ (t.isElement → ∀ u, h.graph.Edge t u → u.isElement) := by
  unfold elementFault?
  by_cases ht : t.isElement
  · cases hb : h.baseOf? t with
    | none => simp [ht, hb, edge_iff_baseOf?_or_mem]
    | some b => simp [ht, hb, edge_iff_baseOf?_or_mem, or_imp, forall_and]
  · simp [ht]

/-! ## The checks of a hierarchy -/

/-- Where keys and identities tell the types apart, the checks of the links, of cycles and of
elements find nothing exactly if the links are sound. -/
theorem linkChecks_iff_linked {h : Hierarchy} (hkeys : (h.types.map ContentType.key).Nodup)
    (hids : (h.types.map ContentType.id).Nodup) :
    (h.types.findSome? h.linkFault? = none ∧ h.cycleFault? = none ∧
      h.types.findSome? h.elementFault? = none) ↔ h.Linked := by
  have hbase : ∀ t, h.baseFault? t = none ↔ (t.NamesBase → ∃ b, h.HasBase t b) := fun t => by
    simp only [baseFault?_eq_none_iff, baseOf?_eq_some_iff hkeys hids]
  have hmixin : ∀ t aliasName, h.mixinFault? t aliasName = none ↔
      ∃ m, h.Means t aliasName m ∧ m.usage ≠ .ordinary := fun t aliasName => by
    simp only [mixinFault?_eq_none_iff, sole?_meant_iff hkeys, ContentType.isMixin_iff]
  have hlink : ∀ t, h.linkFault? t = none ↔
      h.baseFault? t = none ∧ ∀ aliasName ∈ t.mixinAliases, h.mixinFault? t aliasName = none := by
    simp [linkFault?]
  have hedge : h.graph.Edge = h.HasSupertype := edge_eq_hasSupertype hkeys hids
  have hcycle : h.cycleFault? = none ↔ ∀ t ∈ h.types, ¬ Relation.TransGen h.HasSupertype t t := by
    rw [cycleFault?, Option.map_eq_none_iff,
      Digraph.cycleNode?_eq_none_iff h.graph_closed hkeys.of_map, ← hedge]
    rfl
  have helement : ∀ t, h.elementFault? t = none ↔
      (t.itemType = .element → ∀ u, h.HasSupertype t u → u.itemType = .element) := fun t => by
    simp only [elementFault?_eq_none_iff, hedge, ContentType.isElement_iff]
  simp only [List.findSome?_eq_none_iff, hlink, hbase, hmixin, hcycle, helement]
  constructor
  · rintro ⟨hlinks, hacyclic, helements⟩
    refine ⟨fun t ht => (hlinks t ht).1, fun t ht aliasName ha => ?_, fun t ht m hm => ?_,
      hacyclic, helements⟩
    · obtain ⟨m, hm, -⟩ := (hlinks t ht).2 aliasName ha
      exact ⟨m, hm⟩
    · -- The check has looked at what the alias means, which is one type only.
      obtain ⟨aliasName, ha, hm⟩ := hm
      obtain ⟨n, hn, hmix⟩ := (hlinks t ht).2 aliasName ha
      have hsole := (sole?_meant_iff hkeys).2 hm
      rw [(sole?_meant_iff hkeys).2 hn] at hsole
      exact Option.some.inj hsole ▸ hmix
  · rintro ⟨hbases, hmixins, hmix, hacyclic, helements⟩
    refine ⟨fun t ht => ⟨hbases t ht, fun aliasName ha => ?_⟩, hacyclic, helements⟩
    obtain ⟨m, hm⟩ := hmixins t ht aliasName ha
    exact ⟨m, hm, hmix t ht m ⟨aliasName, ha, hm⟩⟩

/-- The links stay sound, and unsound, where only properties change. -/
theorem linked_map_iff {types : List ContentType} {f : ContentType → ContentType}
    (hf : ∀ t, f t = { t with properties := (f t).properties })
    (hkeys : (types.map ContentType.key).Nodup) :
    (Hierarchy.mk (types.map f)).Linked ↔ (Hierarchy.mk types).Linked := by
  have hbase : ∀ t, (f t).NamesBase ↔ t.NamesBase := fun t => by rw [hf]; rfl
  have hmixins : ∀ t, (f t).mixinAliases = t.mixinAliases := fun t => by rw [hf]
  have husage : ∀ t, (f t).usage = t.usage := fun t => by rw [hf]
  have hitem : ∀ t, (f t).itemType = t.itemType := fun t => by rw [hf]
  constructor
  · rintro ⟨h1, h2, h3, h4, h5⟩
    simp only [List.forall_mem_map, hbase, hmixins, hasBase_map_iff hf hkeys,
      means_map_iff hf hkeys, hasMixin_map_iff hf hkeys, transGen_map_iff hf hkeys,
      hasSupertype_map_iff hf hkeys, hitem] at h1 h2 h3 h4 h5
    refine ⟨fun t ht hn => ?_, fun t ht a ha => ?_, fun t ht m hm => ?_, fun t ht hc => ?_,
      fun t ht he u hu => ?_⟩
    · obtain ⟨_, b, hb, -⟩ := h1 t ht hn
      exact ⟨b, hb⟩
    · obtain ⟨_, m, hm, -⟩ := h2 t ht a ha
      exact ⟨m, hm⟩
    · exact husage m ▸ h3 t ht (f m) ⟨m, hm, rfl⟩
    · exact h4 t ht ⟨t, hc, rfl⟩
    · exact hitem u ▸ h5 t ht he (f u) ⟨u, hu, rfl⟩
  · rintro ⟨h1, h2, h3, h4, h5⟩
    refine ⟨?_, ?_, ?_, ?_, ?_⟩ <;>
      simp only [List.forall_mem_map, hbase, hmixins, hasBase_map_iff hf hkeys,
        means_map_iff hf hkeys, hasMixin_map_iff hf hkeys, transGen_map_iff hf hkeys,
        hasSupertype_map_iff hf hkeys, hitem]
    · intro t ht hn
      obtain ⟨b, hb⟩ := h1 t ht hn
      exact ⟨f b, b, hb, rfl⟩
    · intro t ht a ha
      obtain ⟨m, hm⟩ := h2 t ht a ha
      exact ⟨f m, m, hm, rfl⟩
    · rintro t ht _ ⟨m, hm, rfl⟩
      exact husage m ▸ h3 t ht m hm
    · rintro t ht ⟨u, hc, e⟩
      obtain ⟨_, -, hu⟩ := Relation.TransGen.tail'_iff.1 hc
      -- The cycle of changed types is one of types.
      exact h4 t ht (eq_of_map_eq hf hkeys ht (mem_of_hasSupertype hu) e ▸ hc)
    · rintro t ht he _ ⟨u, hu, rfl⟩
      exact (hitem u).trans (h5 t ht he u hu)

/-! ## Acceptance -/

/-- Notes change the properties only. -/
theorem noteClashes_eq (mode : Mode) (t : ContentType) :
    noteClashes mode t = { t with properties := (noteClashes mode t).properties } := by
  cases mode <;> rfl

/-- Notes change no key. -/
theorem map_key_noteClashes (mode : Mode) (types : List ContentType) :
    (types.map (noteClashes mode)).map ContentType.key = types.map ContentType.key := by
  rw [List.map_map]
  refine List.map_congr_left fun t _ => ?_
  rw [Function.comp_apply, noteClashes_eq]
  rfl

/-- Notes change no identity. -/
theorem map_id_noteClashes (mode : Mode) (types : List ContentType) :
    (types.map (noteClashes mode)).map ContentType.id = types.map ContentType.id := by
  rw [List.map_map]
  refine List.map_congr_left fun t _ => ?_
  rw [Function.comp_apply, noteClashes_eq]

/-- A type with its notes is the type as it is accepted. -/
theorem acceptedAs_noteClashes (mode : Mode) (t : ContentType) :
    AcceptedAs mode t (noteClashes mode t) := by
  refine ⟨noteClashes_eq mode t, ?_⟩
  cases mode with
  | sourceCode => exact List.forall₂_same.2 fun p _ => by simp
  | inMemory =>
    refine List.forall₂_map_right_iff.2 (List.forall₂_same.2 fun p _ => ?_)
    simp [Property.addError]

/-- No check finds a fault exactly if the types are acceptable. -/
theorem fault?_eq_none_iff {mode : Mode} {types : List ContentType} :
    fault? mode types = none ↔ Acceptable mode ⟨types⟩ := by
  -- The links are checked on the types with their notes.
  have hlinked (hkeys : (types.map ContentType.key).Nodup)
      (hids : (types.map ContentType.id).Nodup) :=
    (linkChecks_iff_linked (h := ⟨types.map (noteClashes mode)⟩)
      (map_key_noteClashes mode types ▸ hkeys) (map_id_noteClashes mode types ▸ hids)).trans
        (linked_map_iff (noteClashes_eq mode) hkeys)
  simp only [fault?, Option.orElse_eq_orElse, Option.orElse_eq_or, Option.or_eq_none_iff,
    identityFault?_eq_none_iff]
  constructor
  · rintro ⟨⟨hkeys, hids, -⟩, hprops, hlinks, hcycle, helements⟩
    rw [List.findSome?_eq_none_iff] at hprops
    refine ⟨hkeys, hids, fun t ht => ?_, fun hmode t ht => ?_, ?_⟩
    · exact (propertyFault?_eq_none_iff.1 (hprops t ht)).1
    · exact fun p hp hactive => (propertyFault?_eq_none_iff.1 (hprops t ht)).2 hmode p
        (ContentType.mem_activeProperties_iff.2 ⟨hp, hactive⟩)
    · exact (hlinked hkeys hids).1 ⟨hlinks, hcycle, helements⟩
  · rintro ⟨hkeys, hids, hnames, hclash, hlinks⟩
    obtain ⟨hlink, hcycle, helement⟩ := (hlinked hkeys hids).2 hlinks
    refine ⟨⟨hkeys, hids, by simp⟩, ?_, hlink, hcycle, helement⟩
    refine List.findSome?_eq_none_iff.2 fun t ht => propertyFault?_eq_none_iff.2 ?_
    refine ⟨hnames t ht, fun hmode p hp => ?_⟩
    obtain ⟨hmem, hactive⟩ := ContentType.mem_activeProperties_iff.1 hp
    exact hclash hmode t ht p hmem hactive

/-- The hierarchy of acceptable types holds them with their notes. -/
theorem ofTypes_eq_ok_iff {mode : Mode} {types : List ContentType} {h : Hierarchy} :
    ofTypes mode types = .ok h ↔
      Acceptable mode ⟨types⟩ ∧ h = ⟨types.map (noteClashes mode)⟩ := by
  rw [← fault?_eq_none_iff, ofTypes]
  cases fault? mode types <;> simp [eq_comm]

/-- As source files, types without a fault are a hierarchy as they are. -/
theorem ofTypes_sourceCode_eq_ok {types : List ContentType}
    (h : fault? .sourceCode types = none) : ofTypes .sourceCode types = .ok ⟨types⟩ := by
  have hkept : types.map (noteClashes .sourceCode) = types := List.map_id types
  unfold ofTypes
  rw [h, hkept]

/-- What holds of every accepted hierarchy. -/
structure Sound (h : Hierarchy) : Prop where
  /-- No two types share alias and item type. -/
  keys : (h.types.map ContentType.key).Nodup
  /-- No two types share their identity. -/
  ids : (h.types.map ContentType.id).Nodup
  /-- The links are sound. -/
  linked : h.Linked

/-- An accepted hierarchy is sound. -/
theorem sound_of_ofTypes {mode : Mode} {types : List ContentType} {h : Hierarchy}
    (hok : ofTypes mode types = .ok h) : h.Sound := by
  obtain ⟨hacceptable, rfl⟩ := ofTypes_eq_ok_iff.1 hok
  refine ⟨?_, ?_, (linked_map_iff (noteClashes_eq mode) hacceptable.keys).2 hacceptable.linked⟩
  · exact map_key_noteClashes mode types ▸ hacceptable.keys
  · exact map_id_noteClashes mode types ▸ hacceptable.ids

/-- The graph of a sound hierarchy has the supertypes as its edges. -/
theorem Sound.edge_iff {h : Hierarchy} (hs : h.Sound) {t u : ContentType} :
    h.graph.Edge t u ↔ h.HasSupertype t u :=
  Hierarchy.edge_iff hs.keys hs.ids

/-- The graph of a sound hierarchy is acyclic. -/
theorem Sound.acyclic {h : Hierarchy} (hs : h.Sound) : h.graph.Acyclic := by
  intro t ht hcycle
  exact hs.linked.acyclic t ht (Relation.TransGen.mono (fun _ _ => hs.edge_iff.1) t t hcycle)

/-- The mixins of a type of a sound hierarchy are mixins. -/
theorem Sound.isMixin {h : Hierarchy} (hs : h.Sound) {t m : ContentType} (ht : t ∈ h.types)
    (hm : m ∈ h.mixinsOf t) : m.isMixin :=
  ContentType.isMixin_iff.2 (hs.linked.isMixin t ht m ((mem_mixinsOf_iff hs.keys).1 hm))

/-- The given types are accepted exactly if they are acceptable. If they are, the hierarchy holds
them in their order, each as it is accepted, and whatever an element inherits from or is composed
of, directly or through others, is an element. -/
theorem ofTypes_accepts_iff (mode : Mode) (types : List ContentType) :
    ((∃ h, ofTypes mode types = .ok h) ↔ Acceptable mode ⟨types⟩) ∧
      ∀ h, ofTypes mode types = .ok h →
        List.Forall₂ (AcceptedAs mode) types h.types ∧
          (mode = .sourceCode → h.types = types) ∧
          ∀ t ∈ h.types, t.itemType = .element →
            ∀ u, Relation.ReflTransGen h.HasSupertype t u → u.itemType = .element := by
  refine ⟨by simp [ofTypes_eq_ok_iff], fun h hok => ⟨?_, ?_, fun t ht helement u htu => ?_⟩⟩
  · obtain ⟨-, rfl⟩ := ofTypes_eq_ok_iff.1 hok
    refine List.forall₂_map_right_iff.2 (List.forall₂_same.2 fun t _ => ?_)
    exact acceptedAs_noteClashes mode t
  · rintro rfl
    obtain ⟨-, rfl⟩ := ofTypes_eq_ok_iff.1 hok
    exact List.map_id types
  · have hs := sound_of_ofTypes hok
    have hboth : u ∈ h.types ∧ u.itemType = .element := by
      induction htu with
      | refl => exact ⟨ht, helement⟩
      | tail _ huv ih =>
        exact ⟨mem_of_hasSupertype huv, hs.linked.elements _ ih.1 ih.2 _ huv⟩
    exact hboth.2

/-- An element that is composed of another. Two of its properties are named like itself: one has a
note already, and the other one is ignored. -/
def cardTypes : List ContentType :=
  [{ id := 1, aliasName := "seo", className := "Seo", itemType := .element, usage := .mixin,
      properties := [{ aliasName := "card", memberName := "Card", type := .string }] },
    { id := 2, aliasName := "card", className := "Card", itemType := .element,
      mixinAliases := ["seo"],
      properties :=
        [{ aliasName := "card", memberName := "Card", type := .string, errors := ["No editor."] },
          { aliasName := "old", memberName := "Card", type := .string, ignored := true }] }]

/-- In memory, the card is accepted, and the first of its properties gets one more note, but neither
the ignored one nor that of the other type. -/
theorem card_accepted :
    Acceptable .inMemory ⟨cardTypes⟩ ∧
      ∃ h, ofTypes .inMemory cardTypes = .ok h ∧
        List.Forall₂ (AcceptedAs .inMemory) cardTypes h.types ∧
        h.types.map (fun t => t.properties.map Property.errors) =
          [[[]], [["No editor.",
            "The property name \"Card\" is the same as the name of its declaring content type. " ++
              "A member cannot have the same name as its enclosing type."], []]] := by
  have hfault : fault? .inMemory cardTypes = none := by decide +kernel
  have hok : ofTypes .inMemory cardTypes = .ok ⟨cardTypes.map (noteClashes .inMemory)⟩ := by
    unfold ofTypes
    rw [hfault]
  obtain ⟨haccept, hkept⟩ := ofTypes_accepts_iff .inMemory cardTypes
  exact ⟨haccept.1 ⟨_, hok⟩, _, hok, (hkept _ hok).1, by decide +kernel⟩

end Hierarchy

end ContentModels
