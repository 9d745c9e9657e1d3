import ContentModels.Hierarchy.Basic
import ContentModels.Proofs.Digraph.Reachability
import Mathlib.Data.List.Nodup

/-!
# Links as relations

What it means that an alias stands for a type, and that a type has a base and mixins, said without
searching (`Hierarchy.Means`, `HasBase`, `HasMixin`, `HasSupertype`). Where alias and item type tell
the types apart, and so do the identities, the functions that follow the links compute these
relations: `baseOf?_eq_some_iff`, `mem_mixinsOf_iff` and, for the graph, `edge_iff`.

The graph is closed whatever the hierarchy (`graph_closed`), since links are looked up among its
types.
-/

namespace ContentModels

/-- The only element of a list is what `sole?` finds. -/
theorem sole?_eq_some_iff {α : Type} {l : List α} {x : α} : sole? l = some x ↔ l = [x] := by
  rcases l with _ | ⟨y, _ | ⟨z, l⟩⟩ <;> simp [sole?]

/-- A list without repetition that holds one element and no other is the list of that element. -/
theorem eq_singleton_of_nodup {α : Type} {l : List α} {x : α} (hnodup : l.Nodup) (hx : x ∈ l)
    (h : ∀ y ∈ l, y = x) : l = [x] := by
  rcases l with _ | ⟨y, _ | ⟨z, l⟩⟩
  · cases hx
  · rw [h y List.mem_cons_self]
  · have hy := h y List.mem_cons_self
    have hz := h z (List.mem_cons_of_mem y List.mem_cons_self)
    exact absurd (List.mem_cons.2 (.inl (hy.trans hz.symm))) (List.nodup_cons.1 hnodup).1

/-- A search finds the only element that passes the test. -/
theorem find?_eq_some_of_unique {α : Type} {l : List α} {p : α → Bool} {x : α} (hx : x ∈ l)
    (hpx : p x = true) (h : ∀ y ∈ l, p y = true → y = x) : l.find? p = some x := by
  cases hfind : l.find? p with
  | none => exact absurd hpx (List.find?_eq_none.1 hfind x hx)
  | some y => rw [h y (List.mem_of_find?_eq_some hfind) (List.find?_some hfind)]

/-- Repetitions are erased. -/
theorem nodup_eraseDups {α : Type} [DecidableEq α] : ∀ l : List α, l.eraseDups.Nodup
  | [] => List.nodup_nil
  | x :: l => by
    rw [List.eraseDups_cons]
    refine List.nodup_cons.2 ⟨fun hx => ?_, nodup_eraseDups _⟩
    simp at hx
termination_by l => l.length
decreasing_by exact Nat.lt_succ_of_le (List.length_filter_le _ l)

namespace ContentType

/-- What a type is known by. -/
def key (t : ContentType) : String × ItemType := (t.aliasName, t.itemType)

/-- Whether the type says that it has a base: by alias or, without one, by the parent's identity. -/
def NamesBase (t : ContentType) : Prop := t.baseAlias ≠ none ∨ t.parentId ≠ 0

end ContentType

namespace Hierarchy

/-! ## The relations -/

/-- To the type `t`, the alias means `u`: the type of this alias and of the item type of `t` or,
where there is none, the only type of this alias. -/
def Means (h : Hierarchy) (t : ContentType) (aliasName : String) (u : ContentType) : Prop :=
  u ∈ h.types ∧ u.aliasName = aliasName ∧
    (u.itemType = t.itemType ∨ ∀ v ∈ h.types, v.aliasName = aliasName → v = u)

/-- The base of `t` is `b`: what its base alias means or, without one, the type of the parent's
identity. -/
def HasBase (h : Hierarchy) (t b : ContentType) : Prop :=
  match t.baseAlias with
  | some aliasName => h.Means t aliasName b
  | none => t.parentId ≠ 0 ∧ b ∈ h.types ∧ b.id = t.parentId

/-- One of the mixins of `t` is `m`. -/
def HasMixin (h : Hierarchy) (t m : ContentType) : Prop :=
  ∃ aliasName ∈ t.mixinAliases, h.Means t aliasName m

/-- The base of `t`, or one of its mixins, is `u`. -/
def HasSupertype (h : Hierarchy) (t u : ContentType) : Prop := h.HasBase t u ∨ h.HasMixin t u

/-! ## Links lead to types of the hierarchy -/

/-- The types of an alias are those that have it. -/
theorem mem_withAlias_iff {h : Hierarchy} {aliasName : String} {u : ContentType} :
    u ∈ h.withAlias aliasName ↔ u ∈ h.types ∧ u.aliasName = aliasName := by
  simp [withAlias]

/-- What an alias may mean is a type of the hierarchy with this alias. -/
theorem mem_of_mem_meant {h : Hierarchy} {itemType : ItemType} {aliasName : String}
    {u : ContentType} (hu : u ∈ h.meant itemType aliasName) :
    u ∈ h.types ∧ u.aliasName = aliasName := by
  have hwith : u ∈ h.withAlias aliasName := by
    unfold meant at hu
    split at hu
    · rename_i t ht
      exact List.mem_singleton.1 hu ▸ List.mem_of_find?_eq_some ht
    · exact hu
  exact mem_withAlias_iff.1 hwith

/-- A base is a type of the hierarchy. -/
theorem mem_of_baseOf? {h : Hierarchy} {t b : ContentType} (hb : h.baseOf? t = some b) :
    b ∈ h.types := by
  unfold baseOf? at hb
  split at hb
  · have hmeant := sole?_eq_some_iff.1 hb
    exact (mem_of_mem_meant (hmeant ▸ List.mem_singleton_self b)).1
  · split at hb
    · cases hb
    · exact List.mem_of_find?_eq_some hb

/-- Mixins are types of the hierarchy. -/
theorem mem_of_mem_mixinsOf {h : Hierarchy} {t m : ContentType} (hm : m ∈ h.mixinsOf t) :
    m ∈ h.types := by
  rw [mixinsOf, List.mem_eraseDups, List.mem_filterMap] at hm
  obtain ⟨aliasName, -, hsole⟩ := hm
  have hmeant := sole?_eq_some_iff.1 hsole
  exact (mem_of_mem_meant (hmeant ▸ List.mem_singleton_self m)).1

/-- An edge leads to the base or to a mixin. -/
theorem edge_iff_baseOf?_or_mem {h : Hierarchy} {t u : ContentType} :
    h.graph.Edge t u ↔ h.baseOf? t = some u ∨ u ∈ h.mixinsOf t := by
  simp [Digraph.Edge, graph, supertypesOf, Option.mem_toList]

/-- An edge leads from a type to its base. -/
theorem edge_of_baseOf? {h : Hierarchy} {t b : ContentType} (hb : h.baseOf? t = some b) :
    h.graph.Edge t b :=
  edge_iff_baseOf?_or_mem.2 (.inl hb)

/-- An edge leads from a type to each of its mixins. -/
theorem edge_of_mem_mixinsOf {h : Hierarchy} {t m : ContentType} (hm : m ∈ h.mixinsOf t) :
    h.graph.Edge t m :=
  edge_iff_baseOf?_or_mem.2 (.inr hm)

/-- The graph of a hierarchy is closed. -/
theorem graph_closed (h : Hierarchy) : h.graph.Closed := by
  intro t u htu
  rcases edge_iff_baseOf?_or_mem.1 htu with hu | hu
  · exact mem_of_baseOf? hu
  · exact mem_of_mem_mixinsOf hu

/-- The closure of a type of the hierarchy holds what the type reaches. -/
theorem mem_closure_iff {h : Hierarchy} {t u : ContentType} (ht : t ∈ h.types) :
    u ∈ h.closure t ↔ h.graph.Reaches t u :=
  Digraph.mem_preorder_iff h.graph_closed ht

/-- A supertype is a type of the hierarchy. -/
theorem mem_of_hasSupertype {h : Hierarchy} {t u : ContentType} (htu : h.HasSupertype t u) :
    u ∈ h.types := by
  rcases htu with htu | ⟨aliasName, -, hu, -⟩
  · unfold HasBase at htu
    split at htu
    · exact htu.1
    · exact htu.2.1
  · exact hu

/-! ## Links where keys and identities tell the types apart -/

/-- The search by alias and item type finds the type that has them. -/
theorem find?_eq_some_iff {h : Hierarchy} (hkeys : (h.types.map ContentType.key).Nodup)
    {aliasName : String} {itemType : ItemType} {u : ContentType} :
    h.find? aliasName itemType = some u ↔
      u ∈ h.types ∧ u.aliasName = aliasName ∧ u.itemType = itemType := by
  constructor
  · intro hu
    have hmem := List.mem_of_find?_eq_some hu
    have hitem := List.find?_some hu
    simp only [withAlias, List.mem_filter, decide_eq_true_eq] at hmem hitem
    exact ⟨hmem.1, hmem.2, hitem⟩
  · rintro ⟨hu, rfl, rfl⟩
    refine find?_eq_some_of_unique (by simp [withAlias, hu]) (by simp) fun v hv hitem => ?_
    simp only [withAlias, List.mem_filter, decide_eq_true_eq] at hv hitem
    have hkey : v.key = u.key := by simp [ContentType.key, hv.2, hitem]
    exact List.inj_on_of_nodup_map hkeys hv.1 hu hkey

/-- A type of the hierarchy is found by its own alias and item type. -/
theorem own?_eq_some_of_mem {h : Hierarchy} (hkeys : (h.types.map ContentType.key).Nodup)
    {t : ContentType} (ht : t ∈ h.types) : h.own? t = some t :=
  (find?_eq_some_iff hkeys).2 ⟨ht, rfl, rfl⟩

/-- A type is the only one with an alias if all others have another. -/
theorem withAlias_eq_singleton_iff {h : Hierarchy} (hkeys : (h.types.map ContentType.key).Nodup)
    {aliasName : String} {u : ContentType} :
    h.withAlias aliasName = [u] ↔
      u ∈ h.types ∧ u.aliasName = aliasName ∧ ∀ v ∈ h.types, v.aliasName = aliasName → v = u := by
  constructor
  · intro hone
    obtain ⟨hu, halias⟩ := mem_withAlias_iff.1 (hone ▸ List.mem_singleton_self u)
    refine ⟨hu, halias, fun v hv hv' => ?_⟩
    exact List.mem_singleton.1 (hone ▸ mem_withAlias_iff.2 ⟨hv, hv'⟩)
  · rintro ⟨hu, halias, honly⟩
    refine eq_singleton_of_nodup (hkeys.of_map.filter _) (mem_withAlias_iff.2 ⟨hu, halias⟩) ?_
    intro v hv
    obtain ⟨hv, hv'⟩ := mem_withAlias_iff.1 hv
    exact honly v hv hv'

/-- An alias has one possible meaning exactly if it means a type. -/
theorem sole?_meant_iff {h : Hierarchy} (hkeys : (h.types.map ContentType.key).Nodup)
    {t u : ContentType} {aliasName : String} :
    sole? (h.meant t.itemType aliasName) = some u ↔ h.Means t aliasName u := by
  unfold meant
  cases hfind : h.find? aliasName t.itemType with
  | some v =>
    -- The type of the own item type is meant, whatever others there are.
    obtain ⟨hv, halias, hitem⟩ := (find?_eq_some_iff hkeys).1 hfind
    constructor
    · intro hu
      obtain rfl : v = u := by simpa [sole?] using hu
      exact ⟨hv, halias, .inl hitem⟩
    · rintro ⟨hu, hu', hown | honly⟩
      · have hkey : v.key = u.key := by simp [ContentType.key, halias, hu', hitem, hown]
        rw [List.inj_on_of_nodup_map hkeys hv hu hkey]
        rfl
      · rw [honly v hv halias]
        rfl
  | none =>
    -- All types of the alias are candidates, so there has to be one only.
    rw [sole?_eq_some_iff, withAlias_eq_singleton_iff hkeys]
    constructor
    · rintro ⟨hu, hu', honly⟩
      exact ⟨hu, hu', .inr honly⟩
    · rintro ⟨hu, hu', hown | honly⟩
      · rw [(find?_eq_some_iff hkeys).2 ⟨hu, hu', hown⟩] at hfind
        cases hfind
      · exact ⟨hu, hu', honly⟩

/-- The search by identity finds the type that has it. -/
theorem withId?_eq_some_iff {h : Hierarchy} (hids : (h.types.map ContentType.id).Nodup) {id : Int}
    {u : ContentType} : h.withId? id = some u ↔ u ∈ h.types ∧ u.id = id := by
  constructor
  · intro hu
    have hid := List.find?_some hu
    exact ⟨List.mem_of_find?_eq_some hu, by simpa using hid⟩
  · rintro ⟨hu, rfl⟩
    refine find?_eq_some_of_unique hu (by simp) fun v hv hid => ?_
    exact List.inj_on_of_nodup_map hids hv hu (by simpa using hid)

/-- The base that is looked up is the base. -/
theorem baseOf?_eq_some_iff {h : Hierarchy} (hkeys : (h.types.map ContentType.key).Nodup)
    (hids : (h.types.map ContentType.id).Nodup) {t b : ContentType} :
    h.baseOf? t = some b ↔ h.HasBase t b := by
  unfold baseOf? HasBase
  cases t.baseAlias with
  | some aliasName => exact sole?_meant_iff hkeys
  | none =>
    by_cases hparent : t.parentId = 0
    · simp [hparent]
    · simp [hparent, withId?_eq_some_iff hids]

/-- The mixins that are looked up are the mixins. -/
theorem mem_mixinsOf_iff {h : Hierarchy} (hkeys : (h.types.map ContentType.key).Nodup)
    {t m : ContentType} : m ∈ h.mixinsOf t ↔ h.HasMixin t m := by
  simp only [mixinsOf, List.mem_eraseDups, List.mem_filterMap, sole?_meant_iff hkeys, HasMixin]

/-- The edges of the graph lead to the supertypes. -/
theorem edge_iff {h : Hierarchy} (hkeys : (h.types.map ContentType.key).Nodup)
    (hids : (h.types.map ContentType.id).Nodup) {t u : ContentType} :
    h.graph.Edge t u ↔ h.HasSupertype t u := by
  rw [edge_iff_baseOf?_or_mem, baseOf?_eq_some_iff hkeys hids, mem_mixinsOf_iff hkeys, HasSupertype]

/-- To lead to is to have as a supertype. -/
theorem edge_eq_hasSupertype {h : Hierarchy} (hkeys : (h.types.map ContentType.key).Nodup)
    (hids : (h.types.map ContentType.id).Nodup) : h.graph.Edge = h.HasSupertype := by
  funext t u
  exact propext (edge_iff hkeys hids)

/-! ## What changes the properties only -/

section MapProperties

variable {types : List ContentType} {f : ContentType → ContentType}

/-- Types that the change makes equal have one key, so they are one type. -/
theorem eq_of_map_eq (hf : ∀ t, f t = { t with properties := (f t).properties })
    (hkeys : (types.map ContentType.key).Nodup) {t u : ContentType} (ht : t ∈ types)
    (hu : u ∈ types) (e : f u = f t) : u = t := by
  refine List.inj_on_of_nodup_map hkeys hu ht ?_
  rw [hf u, hf t] at e
  injection e with _ halias _ hitem
  rw [ContentType.key, ContentType.key, halias, hitem]

/-- Aliases mean the same where only properties have changed. -/
theorem means_map_iff (hf : ∀ t, f t = { t with properties := (f t).properties })
    (hkeys : (types.map ContentType.key).Nodup) {t v : ContentType} {aliasName : String} :
    (Hierarchy.mk (types.map f)).Means (f t) aliasName v ↔
      ∃ u, (Hierarchy.mk types).Means t aliasName u ∧ f u = v := by
  have halias : ∀ u, (f u).aliasName = u.aliasName := fun u => by rw [hf]
  have hitem : ∀ u, (f u).itemType = u.itemType := fun u => by rw [hf]
  constructor
  · rintro ⟨hv, hv', hmeant⟩
    obtain ⟨u, hu, rfl⟩ := List.mem_map.1 hv
    rw [halias] at hv'
    rw [hitem, hitem] at hmeant
    refine ⟨u, ⟨hu, hv', hmeant.imp_right fun honly w hw hw' => ?_⟩, rfl⟩
    have e : f w = f u := honly (f w) (List.mem_map_of_mem hw) ((halias w).trans hw')
    have hkey : w.key = u.key := by
      rw [ContentType.key, ContentType.key, ← halias w, ← hitem w, e, halias, hitem]
    exact List.inj_on_of_nodup_map hkeys hw hu hkey
  · rintro ⟨u, ⟨hu, hu', hmeant⟩, rfl⟩
    refine ⟨List.mem_map_of_mem hu, (halias u).trans hu', ?_⟩
    rw [hitem, hitem]
    refine hmeant.imp_right fun honly v hv hv' => ?_
    obtain ⟨w, hw, rfl⟩ := List.mem_map.1 hv
    rw [honly w hw ((halias w).symm.trans hv')]

/-- Bases are the same where only properties have changed. -/
theorem hasBase_map_iff (hf : ∀ t, f t = { t with properties := (f t).properties })
    (hkeys : (types.map ContentType.key).Nodup) {t v : ContentType} :
    (Hierarchy.mk (types.map f)).HasBase (f t) v ↔
      ∃ b, (Hierarchy.mk types).HasBase t b ∧ f b = v := by
  have hbase : (f t).baseAlias = t.baseAlias := by rw [hf]
  have hparent : (f t).parentId = t.parentId := by rw [hf]
  have hid : ∀ u, (f u).id = u.id := fun u => by rw [hf]
  rw [HasBase, hbase]
  cases e : t.baseAlias with
  | some aliasName =>
    simp only [means_map_iff hf hkeys, HasBase, e]
  | none =>
    simp only [HasBase, e, hparent]
    constructor
    · rintro ⟨hne, hv, hv'⟩
      obtain ⟨u, hu, rfl⟩ := List.mem_map.1 hv
      exact ⟨u, ⟨hne, hu, (hid u).symm.trans hv'⟩, rfl⟩
    · rintro ⟨u, ⟨hne, hu, hu'⟩, rfl⟩
      exact ⟨hne, List.mem_map_of_mem hu, (hid u).trans hu'⟩

/-- Mixins are the same where only properties have changed. -/
theorem hasMixin_map_iff (hf : ∀ t, f t = { t with properties := (f t).properties })
    (hkeys : (types.map ContentType.key).Nodup) {t v : ContentType} :
    (Hierarchy.mk (types.map f)).HasMixin (f t) v ↔
      ∃ m, (Hierarchy.mk types).HasMixin t m ∧ f m = v := by
  have hmixins : (f t).mixinAliases = t.mixinAliases := by rw [hf]
  simp only [HasMixin, hmixins, means_map_iff hf hkeys]
  constructor
  · rintro ⟨aliasName, ha, m, hm, rfl⟩
    exact ⟨m, ⟨aliasName, ha, hm⟩, rfl⟩
  · rintro ⟨m, ⟨aliasName, ha, hm⟩, rfl⟩
    exact ⟨aliasName, ha, m, hm, rfl⟩

/-- Supertypes are the same where only properties have changed. -/
theorem hasSupertype_map_iff (hf : ∀ t, f t = { t with properties := (f t).properties })
    (hkeys : (types.map ContentType.key).Nodup) {t v : ContentType} :
    (Hierarchy.mk (types.map f)).HasSupertype (f t) v ↔
      ∃ u, (Hierarchy.mk types).HasSupertype t u ∧ f u = v := by
  rw [HasSupertype, hasBase_map_iff hf hkeys, hasMixin_map_iff hf hkeys]
  simp only [HasSupertype, or_and_right, exists_or]

/-- Supertypes of supertypes are the same where only properties have changed. -/
theorem transGen_map_iff (hf : ∀ t, f t = { t with properties := (f t).properties })
    (hkeys : (types.map ContentType.key).Nodup) {t v : ContentType} :
    Relation.TransGen (Hierarchy.mk (types.map f)).HasSupertype (f t) v ↔
      ∃ u, Relation.TransGen (Hierarchy.mk types).HasSupertype t u ∧ f u = v := by
  constructor
  · intro h
    induction h with
    | single htv =>
      obtain ⟨u, htu, rfl⟩ := (hasSupertype_map_iff hf hkeys).1 htv
      exact ⟨u, .single htu, rfl⟩
    | tail _ hvw ih =>
      obtain ⟨u, htu, rfl⟩ := ih
      obtain ⟨w, huw, rfl⟩ := (hasSupertype_map_iff hf hkeys).1 hvw
      exact ⟨w, htu.tail huw, rfl⟩
  · rintro ⟨u, h, rfl⟩
    exact h.lift f fun a b hab => (hasSupertype_map_iff hf hkeys).2 ⟨b, hab, rfl⟩

end MapProperties

end Hierarchy

end ContentModels
