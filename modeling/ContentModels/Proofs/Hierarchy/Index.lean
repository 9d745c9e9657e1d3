import ContentModels.Hierarchy.Index
import ContentModels.Proofs.Digraph.Relation
import ContentModels.Proofs.Hierarchy.Selection

/-!
# Indexes of accepted types

The index is made in one pass that may end with a fault. After each step it covers the types that
have been passed (`Index.Covers`, `Index.covers_add`): of each alias it has the positions of all of
them, and of each identity the position of the one that has it. The pass ends with the fault that
the checks of identities find, or else with an index that covers all types (`Index.ofTypes_eq`).

The types get their notes only after they have been indexed, which changes neither alias nor
identity. All that is looked up by the index of an accepted hierarchy is therefore what a search
finds (`Hierarchy.exists_index`). For the table this is shown by relating each position to the type
that stands there: links, walks and lists of positions are related to those of types.
-/

namespace ContentModels

namespace Index

/-! ## The pass over the types -/

/-- The index has the positions of these types and no others. -/
structure Covers (index : Index) (types : List ContentType) : Prop where
  /-- Of each alias, it has the positions of the types that have it, in their order. -/
  places : ∀ aliasName, index.places aliasName = (Hierarchy.mk types).places aliasName
  /-- Of each identity, it has the position of the type that has it. -/
  byId : ∀ (id : Int) (i : Nat), index.byId[id]? = some i ↔ ∃ t, types[i]? = some t ∧ t.id = id

/-- The empty index covers no types. -/
theorem covers_nil : Covers {} [] where
  places aliasName := by simp [Index.places, Hierarchy.places]
  byId id i := by simp

/-- Positions of a list are positions of any longer one. -/
theorem getElem?_of_append {types earlier rest : List ContentType}
    (htypes : types = earlier ++ rest) {i : Nat} {u : ContentType} (hu : earlier[i]? = some u) :
    types[i]? = some u := by
  have hlt : i < earlier.length := (List.getElem?_eq_some_iff.1 hu).1
  rw [htypes, List.getElem?_append_left hlt, hu]

section Step

variable {types earlier rest : List ContentType} {t : ContentType} {index : Index}

/-- By the positions of its alias, a type is found to share alias and item type with one that has
been passed exactly if it does. -/
theorem Covers.any_places_eq (hcovers : index.Covers earlier) (htypes : types = earlier ++ rest) :
    ((index.places t.aliasName).any fun j => types[j]?.any fun u => u.itemType = t.itemType) =
      earlier.any fun u => u.aliasName = t.aliasName && u.itemType = t.itemType := by
  rw [Bool.eq_iff_iff, List.any_eq_true, List.any_eq_true, hcovers.places]
  constructor
  · rintro ⟨i, hi, hitem⟩
    obtain ⟨u, hu, halias⟩ := Hierarchy.mem_places_iff.1 hi
    rw [getElem?_of_append htypes hu] at hitem
    exact ⟨u, List.mem_of_getElem? hu, by simpa [halias] using hitem⟩
  · rintro ⟨u, hu, hkey⟩
    obtain ⟨i, hi⟩ := List.mem_iff_getElem?.1 hu
    obtain ⟨halias, hitem⟩ : u.aliasName = t.aliasName ∧ u.itemType = t.itemType := by
      simpa using hkey
    refine ⟨i, Hierarchy.mem_places_iff.2 ⟨u, hi, halias⟩, ?_⟩
    rw [getElem?_of_append htypes hi]
    simpa using hitem

/-- By its identity, a type is found to share it with one that has been passed exactly if it
does. -/
theorem Covers.contains_byId_eq (hcovers : index.Covers earlier) :
    index.byId.contains t.id = earlier.any fun u => u.id = t.id := by
  rw [Bool.eq_iff_iff, Std.HashMap.contains_eq_isSome_getElem?, Option.isSome_iff_exists,
    List.any_eq_true]
  constructor
  · rintro ⟨i, hi⟩
    obtain ⟨u, hu, hid⟩ := (hcovers.byId t.id i).1 hi
    exact ⟨u, List.mem_of_getElem? hu, by simpa using hid⟩
  · rintro ⟨u, hu, hid⟩
    obtain ⟨i, hi⟩ := List.mem_iff_getElem?.1 hu
    exact ⟨i, (hcovers.byId t.id i).2 ⟨u, hi, by simpa using hid⟩⟩

/-- With a type that has an identity of its own, the index covers one type more. -/
theorem Covers.insert (hcovers : index.Covers earlier) (hid : index.byId.contains t.id = false) :
    Covers ⟨index.byAlias.insert t.aliasName (index.places t.aliasName ++ [earlier.length]),
      index.byId.insert t.id earlier.length⟩ (earlier ++ [t]) where
  places aliasName := by
    have hplaces : ∀ a, index.byAlias.getD a [] = earlier.findIdxs fun u => u.aliasName = a :=
      hcovers.places
    rw [Index.places, Hierarchy.places, Std.HashMap.getD_insert, List.findIdxs_append,
      List.findIdxs_singleton, Nat.zero_add]
    by_cases halias : t.aliasName = aliasName
    · simp [Index.places, hplaces, halias]
    · simp [hplaces, halias]
  byId id i := by
    have hnew : ∀ u ∈ earlier, u.id ≠ t.id := by
      rw [hcovers.contains_byId_eq] at hid
      simpa using hid
    have hsplit : ∀ u, (earlier ++ [t])[i]? = some u ↔
        earlier[i]? = some u ∨ i = earlier.length ∧ t = u := by
      intro u
      by_cases hlast : i = earlier.length
      · simp [hlast]
      · rw [or_iff_left fun h => hlast h.1, List.getElem?_append]
        split
        · rfl
        · rw [List.getElem?_eq_none (by rw [List.length_singleton]; omega),
            List.getElem?_eq_none (by omega)]
    rw [Std.HashMap.getElem?_insert]
    simp only [hsplit, or_and_right, exists_or, ← hcovers.byId]
    by_cases hsame : t.id = id
    · have hnone : index.byId[id]? ≠ some i := by
        intro hi
        obtain ⟨u, hu, huid⟩ := (hcovers.byId id i).1 hi
        exact hnew u (List.mem_of_getElem? hu) (huid.trans hsame.symm)
      simp [hsame, hnone, eq_comm]
    · simp [hsame]

/-- One step: its fault is that of the checks; without one, the index covers one type more, and the
checks go on. -/
theorem Covers.add (hcovers : index.Covers earlier) (htypes : types = earlier ++ t :: rest) :
    (∃ fault, index.add types earlier.length t = .error fault ∧
      Hierarchy.identityFault? earlier.reverse (t :: rest) = some fault) ∨
    (∃ next, index.add types earlier.length t = .ok next ∧ next.Covers (earlier ++ [t]) ∧
      Hierarchy.identityFault? earlier.reverse (t :: rest) =
        Hierarchy.identityFault? (earlier ++ [t]).reverse rest) := by
  have hkey := hcovers.any_places_eq (t := t) htypes
  have hid := hcovers.contains_byId_eq (t := t)
  rw [Index.add, hkey, hid, Hierarchy.identityFault?, List.any_reverse, List.any_reverse]
  split
  · exact .inl ⟨_, rfl, rfl⟩
  · split
    · exact .inl ⟨_, rfl, rfl⟩
    · rename_i hfree
      refine .inr ⟨_, rfl, hcovers.insert ?_, by rw [List.reverse_append]; rfl⟩
      rw [hid]
      simpa using hfree

end Step

/-- The pass ends with the fault that the checks find or, without one, with an index that covers all
types. -/
theorem Covers.addAll {types earlier : List ContentType} {index : Index}
    (hcovers : index.Covers earlier) {rest : List ContentType} (htypes : types = earlier ++ rest) :
    (∃ fault, index.addAll types earlier.length rest = .error fault ∧
      Hierarchy.identityFault? earlier.reverse rest = some fault) ∨
    (∃ whole, index.addAll types earlier.length rest = .ok whole ∧ whole.Covers types ∧
      Hierarchy.identityFault? earlier.reverse rest = none) := by
  induction rest generalizing index earlier with
  | nil =>
    rw [List.append_nil] at htypes
    exact .inr ⟨index, rfl, htypes ▸ hcovers, rfl⟩
  | cons t rest ih =>
    rw [Index.addAll]
    rcases hcovers.add htypes with ⟨fault, hadd, hfault⟩ | ⟨next, hadd, hnext, hfault⟩
    · exact .inl ⟨fault, by rw [hadd], hfault⟩
    · have hmore := ih hnext (by rw [htypes, List.append_assoc]; rfl)
      rw [hadd, hfault]
      simpa using hmore

/-- The index is made, and covers the types, unless the checks of identities find a fault. -/
theorem ofTypes_eq (types : List ContentType) :
    (∃ fault, ofTypes types = .error fault ∧ Hierarchy.identityFault? [] types = some fault) ∨
      ∃ index, ofTypes types = .ok index ∧ index.Covers types ∧
        Hierarchy.identityFault? [] types = none :=
  covers_nil.addAll rfl

/-- The notes that types get change neither aliases nor identities. -/
theorem Covers.map_noteClashes {types : List ContentType} {index : Index}
    (hcovers : index.Covers types) (mode : Mode) :
    index.Covers (types.map (Hierarchy.noteClashes mode)) where
  places aliasName := by
    rw [hcovers.places, Hierarchy.places, Hierarchy.places, List.findIdxs_map]
    refine congrArg (List.findIdxs · types) (funext fun t => ?_)
    rw [Function.comp_apply, Hierarchy.noteClashes_eq]
  byId id i := by
    have hid : ∀ t, (Hierarchy.noteClashes mode t).id = t.id := fun t => by
      rw [Hierarchy.noteClashes_eq]
    rw [hcovers.byId]
    simp [List.getElem?_map, hid]

end Index

namespace Hierarchy

/-! ## Positions and the types that stand there -/

/-- The type stands at the position. -/
def At (h : Hierarchy) (i : Nat) (t : ContentType) : Prop := h.types[i]? = some t

variable {h : Hierarchy}

/-- Where the types differ, each stands at one position. -/
theorem biUnique_at (hnodup : h.types.Nodup) : Relator.BiUnique h.At := by
  constructor
  · intro i t j hi hj
    exact (List.getElem?_inj (List.getElem?_eq_some_iff.1 hi).1 hnodup).1 (hi.trans hj.symm)
  · intro i t u ht hu
    exact Option.some.inj (ht.symm.trans hu)

/-- At the positions of an alias stand the types that have it. -/
theorem rel_places (aliasName : String) :
    List.Forall₂ h.At (h.places aliasName) (h.withAlias aliasName) := by
  -- The positions of what follows a front are counted from its length on.
  have hbehind : ∀ front l : List ContentType,
      List.Forall₂ (fun i t => (front ++ l)[i]? = some t)
        (l.findIdxs (fun t => t.aliasName = aliasName) front.length)
        (l.filter fun t => t.aliasName = aliasName) := by
    intro front l
    induction l generalizing front with
    | nil => simp
    | cons t l ih =>
      have hrest := ih (front ++ [t])
      rw [List.append_assoc, List.length_append] at hrest
      rw [List.findIdxs_cons, List.filter_cons]
      split
      · exact .cons (by simp) hrest
      · exact hrest
  exact hbehind [] h.types

end Hierarchy

/-- Related lists of one element have related elements. -/
theorem rel_sole? {α β : Type} {R : α → β → Prop} {l : List α} {l' : List β}
    (h : List.Forall₂ R l l') : Option.Rel R (sole? l) (sole? l') := by
  obtain _ | ⟨hxy, _ | _⟩ := h
  · exact .none
  · exact .some hxy
  · exact .none

namespace IndexedHierarchy

/-- The hierarchy without its index. -/
def unindexed (g : IndexedHierarchy) : Hierarchy := ⟨g.types⟩

variable {g : IndexedHierarchy}

/-- What is read at positions are the types that stand there. -/
theorem read_eq {places : List Nat} {types : List ContentType}
    (h : List.Forall₂ g.unindexed.At places types) : g.read places = types := by
  induction h with
  | nil => rfl
  | cons hi _ ih => exact (List.filterMap_cons_some hi).trans (congrArg _ ih)

/-- What is read at a position is the type that stands there. -/
theorem bind_getElem?_eq {place : Option Nat} {type : Option ContentType}
    (h : Option.Rel g.unindexed.At place type) : place.bind (g.types[·]?) = type := by
  cases h with
  | none => rfl
  | some hi => exact hi

section Covered

variable (hcovers : g.index.Covers g.types)
include hcovers

/-- The positions of an alias are those of the types that have it. -/
theorem rel_places (aliasName : String) :
    List.Forall₂ g.unindexed.At (g.index.places aliasName) (g.unindexed.withAlias aliasName) := by
  rw [hcovers.places]
  exact Hierarchy.rel_places aliasName

/-- The position of an alias and an item type is that of the type that has them. -/
theorem rel_placeOf? (aliasName : String) (itemType : ItemType) :
    Option.Rel g.unindexed.At (g.placeOf? aliasName itemType)
      (g.unindexed.find? aliasName itemType) := by
  refine rel_find? (fun i t hi => ?_) (rel_places hcovers aliasName)
  have hi : g.types[i]? = some t := hi
  rw [hi]
  rfl

/-- The position of an identity is that of the type that has it. -/
theorem rel_byId (hids : (g.types.map ContentType.id).Nodup) (id : Int) :
    Option.Rel g.unindexed.At g.index.byId[id]? (g.unindexed.withId? id) := by
  cases hbyId : g.index.byId[id]? with
  | some i =>
    obtain ⟨t, hi, hid⟩ := (hcovers.byId id i).1 hbyId
    rw [(Hierarchy.withId?_eq_some_iff hids).2 ⟨List.mem_of_getElem? hi, hid⟩]
    exact .some hi
  | none =>
    cases hwithId : g.unindexed.withId? id with
    | none => exact .none
    | some t =>
      obtain ⟨ht, hid⟩ := (Hierarchy.withId?_eq_some_iff hids).1 hwithId
      obtain ⟨i, hi⟩ := List.mem_iff_getElem?.1 ht
      rw [(hcovers.byId id i).2 ⟨t, hi, hid⟩] at hbyId
      cases hbyId

/-- What an alias may mean are the types at the positions that it may mean. -/
theorem rel_meant (itemType : ItemType) (aliasName : String) :
    List.Forall₂ g.unindexed.At (g.meant itemType aliasName)
      (g.unindexed.meant itemType aliasName) := by
  have hplace := rel_placeOf? hcovers aliasName itemType
  unfold IndexedHierarchy.meant Hierarchy.meant
  generalize g.placeOf? aliasName itemType = place, g.unindexed.find? aliasName itemType = found
    at hplace
  cases hplace with
  | none => exact rel_places hcovers aliasName
  | some hi => exact .cons hi .nil

section Sound

variable (hids : (g.types.map ContentType.id).Nodup)
include hids

/-- The position of the base is that of the base. -/
theorem rel_basePlace? (t : ContentType) :
    Option.Rel g.unindexed.At (g.basePlace? t) (g.unindexed.baseOf? t) := by
  unfold basePlace? Hierarchy.baseOf?
  cases t.baseAlias with
  | some aliasName => exact rel_sole? (rel_meant hcovers t.itemType aliasName)
  | none =>
    by_cases hparent : t.parentId = 0
    · rw [if_pos hparent, if_pos hparent]
      exact .none
    · rw [if_neg hparent, if_neg hparent]
      exact rel_byId hcovers hids t.parentId

variable (hnodup : g.types.Nodup)
include hnodup

omit hids in
/-- The positions of the mixins are those of the mixins. -/
theorem rel_mixinPlaces (t : ContentType) :
    List.Forall₂ g.unindexed.At (g.mixinPlaces t) (g.unindexed.mixinsOf t) := by
  refine rel_eraseDups (Hierarchy.biUnique_at hnodup) ?_
  refine List.rel_filterMap (R := Eq) ?_ (List.forall₂_eq_eq_eq ▸ rfl)
  rintro aliasName _ rfl
  exact rel_sole? (rel_meant hcovers t.itemType aliasName)

/-- From a position, the graph leads to those of the supertypes of the type that stands there. -/
theorem rel_successors {i : Nat} {t : ContentType} (hi : g.unindexed.At i t) :
    List.Forall₂ g.unindexed.At (g.graph.successors i) (g.unindexed.graph.successors t) := by
  have hsuccessors : g.graph.successors i = (g.basePlace? t).toList ++ g.mixinPlaces t :=
    congrArg (Option.elim · [] fun t => (g.basePlace? t).toList ++ g.mixinPlaces t) hi
  rw [hsuccessors]
  exact List.rel_append (rel_toList (rel_basePlace? hcovers hids t))
    (rel_mixinPlaces hcovers hnodup t)

/-- From a position, the graph reaches those of the types that are reached from the type that stands
there. -/
theorem rel_preorder {i : Nat} {t : ContentType} (hi : g.unindexed.At i t) :
    List.Forall₂ g.unindexed.At (g.graph.preorder i) (g.unindexed.closure t) := by
  have hnodes : List.Forall₂ g.unindexed.At (List.range g.types.length) g.types := by
    refine List.forall₂_iff_get.2 ⟨List.length_range, fun j hj hj' => ?_⟩
    simp [Hierarchy.At, unindexed]
  exact Digraph.rel_preorder (Hierarchy.biUnique_at hnodup)
    (fun _ _ => rel_successors hcovers hids hnodup) hnodes hi

/-- The positions that a base reaches are those of the types that are inherited. -/
theorem rel_inherited (t : ContentType) :
    List.Forall₂ g.unindexed.At ((g.basePlace? t).elim [] g.graph.preorder)
      (g.unindexed.inheritedBy t) := by
  have hbase := rel_basePlace? hcovers hids t
  unfold Hierarchy.inheritedBy
  generalize g.basePlace? t = place, g.unindexed.baseOf? t = base at hbase
  cases hbase with
  | none => exact .nil
  | some hi => exact rel_preorder hcovers hids hnodup hi

/-- The positions of the mixins that are declared. -/
theorem rel_declared (t : ContentType) :
    List.Forall₂ g.unindexed.At (g.entry t).declared (g.unindexed.declaredBy t) := by
  refine List.rel_filter (fun i m hi => ?_) (rel_mixinPlaces hcovers hnodup t)
  have hmem := List.rel_mem (Hierarchy.biUnique_at hnodup) hi (rel_inherited hcovers hids hnodup t)
  simpa using not_congr hmem

/-- The positions of the mixins that are implemented. -/
theorem rel_implemented (t : ContentType) :
    List.Forall₂ g.unindexed.At (g.entry t).implemented (g.unindexed.implementedBy t) := by
  refine rel_eraseDups (Hierarchy.biUnique_at hnodup) ?_
  refine List.rel_flatMap (rel_declared hcovers hids hnodup t) fun i m hi => ?_
  refine List.rel_filter (fun j n hj => ?_) (rel_preorder hcovers hids hnodup hi)
  have hmem := List.rel_mem (Hierarchy.biUnique_at hnodup) hj (rel_inherited hcovers hids hnodup t)
  have hmixin : g.types[j]?.any (fun m => m.isMixin) = n.isMixin := congrArg (Option.any _) hj
  simp only [hmixin, Bool.and_eq_true, decide_eq_true_eq]
  exact and_congr_right fun _ => not_congr hmem

end Sound

end Covered

/-! ## Questions -/

/-- By its index, a hierarchy finds what a search through its types finds, and answers for any type
as it does for its own type of the same alias and item type. -/
structure Agrees (g : IndexedHierarchy) (h : Hierarchy) : Prop where
  /-- Of an alias, it finds the types that have it, in the order of declaration. -/
  withAlias : ∀ aliasName, g.withAlias aliasName = h.types.filter fun t => t.aliasName = aliasName
  /-- Of an alias and an item type, it finds the one type that has them. -/
  find? : ∀ aliasName itemType t, g.find? aliasName itemType = some t ↔
    t ∈ h.types ∧ t.aliasName = aliasName ∧ t.itemType = itemType
  /-- Of an identity, it finds the one type that has it. -/
  withId? : ∀ id t, g.withId? id = some t ↔ t ∈ h.types ∧ t.id = id
  /-- The position of any type is that of the one that has its alias and item type. -/
  place? : ∀ t i, g.place? t = some i ↔
    ∃ own, h.types[i]? = some own ∧ own.aliasName = t.aliasName ∧ own.itemType = t.itemType
  /-- A type of the hierarchy is found at its own position. -/
  place?_own : ∀ (i : Nat) t, h.types[i]? = some t → g.place? t = some i
  /-- Of any type, it tells the links that the hierarchy says it has. -/
  standing : ∀ t, g.base? t = (h.standing t).base ∧
    g.related Entry.mixins t = (h.standing t).mixins ∧
    g.related Entry.declared t = (h.standing t).declared ∧
    g.related Entry.implemented t = (h.standing t).implemented
  /-- Of a type that stands in for one of the hierarchy, it tells the links of that one. -/
  standIn : ∀ t, ∀ own ∈ h.types, own.aliasName = t.aliasName → own.itemType = t.itemType →
    g.base? t = h.baseOf? own ∧ g.related Entry.mixins t = h.mixinsOf own ∧
      g.related Entry.declared t = h.declaredBy own ∧
      g.related Entry.implemented t = h.implementedBy own

/-- The entry of a type is that for the hierarchy's own type. -/
theorem entry?_eq (hcovers : g.index.Covers g.types) (t : ContentType) :
    g.entry? t = (g.unindexed.own? t).map g.entry := by
  have hplace := rel_placeOf? hcovers t.aliasName t.itemType
  unfold entry? IndexedHierarchy.place? Hierarchy.own?
  generalize g.placeOf? t.aliasName t.itemType = place,
    g.unindexed.find? t.aliasName t.itemType = own at hplace
  cases hplace with
  | none => rfl
  | some hi =>
    rw [Option.bind_some, table, List.getElem?_map]
    exact congrArg (Option.map g.entry) hi

/-- An index that covers the types of a sound hierarchy answers as the hierarchy does. -/
theorem agrees_of_covers (hcovers : g.index.Covers g.types) (hs : g.unindexed.Sound) :
    g.Agrees g.unindexed := by
  have hnodup : g.types.Nodup := hs.keys.of_map
  have hown : ∀ t, Option.Rel g.unindexed.At (g.place? t) (g.unindexed.own? t) := fun t =>
    rel_placeOf? hcovers t.aliasName t.itemType
  have hplace : ∀ t i, g.place? t = some i ↔ ∃ own, g.types[i]? = some own ∧
      own.aliasName = t.aliasName ∧ own.itemType = t.itemType := by
    intro t i
    have hrel := hown t
    constructor
    · intro hi
      rw [hi] at hrel
      generalize hfound : g.unindexed.own? t = found at hrel
      obtain ⟨hat⟩ := hrel
      exact ⟨_, hat, ((Hierarchy.find?_eq_some_iff hs.keys).1 hfound).2⟩
    · rintro ⟨own, hi, hkey⟩
      have hfound : g.unindexed.own? t = some own :=
        (Hierarchy.find?_eq_some_iff hs.keys).2 ⟨List.mem_of_getElem? hi, hkey⟩
      rw [hfound] at hrel
      generalize g.place? t = place at hrel
      obtain ⟨hat⟩ := hrel
      exact congrArg some ((Hierarchy.biUnique_at (h := g.unindexed) hnodup).left hat hi)
  have hstanding : ∀ t, g.base? t = (g.unindexed.standing t).base ∧
      g.related Entry.mixins t = (g.unindexed.standing t).mixins ∧
      g.related Entry.declared t = (g.unindexed.standing t).declared ∧
      g.related Entry.implemented t = (g.unindexed.standing t).implemented := by
    intro t
    rw [base?, related, related, related, entry?_eq hcovers, Hierarchy.standing]
    cases g.unindexed.own? t with
    | none => exact ⟨rfl, rfl, rfl, rfl⟩
    | some own =>
      exact ⟨bind_getElem?_eq (rel_basePlace? hcovers hs.ids own),
        read_eq (rel_mixinPlaces hcovers hnodup own),
        read_eq (rel_declared hcovers hs.ids hnodup own),
        read_eq (rel_implemented hcovers hs.ids hnodup own)⟩
  have halias : ∀ aliasName, g.withAlias aliasName = g.unindexed.withAlias aliasName :=
    fun aliasName => read_eq (rel_places hcovers aliasName)
  exact
    { withAlias := halias
      find? := fun aliasName itemType t => by
        rw [IndexedHierarchy.find?, halias]
        exact Hierarchy.find?_eq_some_iff hs.keys
      withId? := fun id t => by
        rw [IndexedHierarchy.withId?, bind_getElem?_eq (rel_byId hcovers hs.ids id)]
        exact Hierarchy.withId?_eq_some_iff hs.ids
      place? := hplace
      place?_own := fun i t hi => (hplace t i).2 ⟨t, hi, rfl, rfl⟩
      standing := hstanding
      standIn := fun t own hmem halias hitem => by
        have hfound : g.unindexed.own? t = some own :=
          (Hierarchy.find?_eq_some_iff hs.keys).2 ⟨hmem, halias, hitem⟩
        have hlinks := hstanding t
        rw [Hierarchy.standing, hfound] at hlinks
        exact hlinks }

end IndexedHierarchy

namespace Hierarchy

/-- An accepted list of types can be indexed, and by that index the hierarchy answers as by
searching through its types. -/
theorem exists_index {mode : Mode} {types : List ContentType} {h : Hierarchy}
    (hok : ofTypes mode types = .ok h) :
    ∃ index, Index.ofTypes types = .ok index ∧ (IndexedHierarchy.mk h.types index).Agrees h := by
  have hs := sound_of_ofTypes hok
  obtain ⟨hacceptable, rfl⟩ := ofTypes_eq_ok_iff.1 hok
  have hidentity : identityFault? [] types = none :=
    identityFault?_eq_none_iff.2 ⟨hacceptable.keys, hacceptable.ids, by simp⟩
  rcases Index.ofTypes_eq types with ⟨fault, -, hfault⟩ | ⟨index, hindex, hcovers, -⟩
  · rw [hidentity] at hfault
    cases hfault
  · -- The index is made before the types get their notes.
    exact ⟨index, hindex,
      IndexedHierarchy.agrees_of_covers (g := ⟨types.map (noteClashes mode), index⟩)
        (hcovers.map_noteClashes mode) hs⟩

/-- A page, an element of the same alias, and an article that inherits from the page and is composed
of what the page is composed of and of an author. -/
def indexedTypes : List ContentType :=
  [{ id := 1, aliasName := "seo", className := "Seo", itemType := .content, usage := .mixin },
    { id := 2, aliasName := "page", className := "Page", itemType := .content,
      mixinAliases := ["seo"] },
    { id := 3, aliasName := "page", className := "PageCard", itemType := .element },
    { id := 4, aliasName := "author", className := "Author", itemType := .content,
      usage := .mixin },
    { id := 5, aliasName := "article", className := "Article", itemType := .content, parentId := 2,
      mixinAliases := ["seo", "author"] }]

/-- What goes by the name of the article, and has nothing else of it. -/
def articleName : ContentType :=
  { id := 0, aliasName := "article", className := "", itemType := .content }

/-- By the index of these types, the two pages and the article are found, and what goes by the name
of the article has its base and its mixins, of which the author is declared. -/
theorem article_found :
    ofTypes .sourceCode indexedTypes = .ok ⟨indexedTypes⟩ ∧
      ∃ index, Index.ofTypes indexedTypes = .ok index ∧
        let g : IndexedHierarchy := ⟨indexedTypes, index⟩
        g.withAlias "page" = [indexedTypes[1], indexedTypes[2]] ∧
          g.find? "page" .element = some indexedTypes[2] ∧
          g.withId? 5 = some indexedTypes[4] ∧ g.place? articleName = some 4 ∧
          g.base? articleName = some indexedTypes[1] ∧
          g.related IndexedHierarchy.Entry.mixins articleName =
            [indexedTypes[0], indexedTypes[3]] ∧
          g.related IndexedHierarchy.Entry.declared articleName = [indexedTypes[3]] := by
  have hok : ofTypes .sourceCode indexedTypes = .ok ⟨indexedTypes⟩ :=
    ofTypes_sourceCode_eq_ok (by decide +kernel)
  obtain ⟨index, hindex, hagrees⟩ := exists_index hok
  obtain ⟨hbase, hmixins, hdeclared, -⟩ :=
    hagrees.standIn articleName indexedTypes[4] (by decide) rfl rfl
  refine ⟨hok, index, hindex, ?_, ?_, ?_, ?_, ?_, ?_, ?_⟩
  · rw [hagrees.withAlias]
    decide
  · exact (hagrees.find? _ _ _).2 (by decide)
  · exact (hagrees.withId? _ _).2 (by decide)
  · exact (hagrees.place? _ _).2 ⟨indexedTypes[4], rfl, rfl, rfl⟩
  · rw [hbase]
    decide +kernel
  · rw [hmixins]
    decide +kernel
  · rw [hdeclared]
    decide +kernel

end Hierarchy

end ContentModels
