import ContentModels.Proofs.Digraph.Cycles
import ContentModels.Proofs.Hierarchy.Acceptance

/-!
# Cycles of supertypes

Content types are refused for a cycle exactly if the checks before that one find nothing and some
type is a supertype of itself, directly or through others; the alias that is told is that of such a
type (`cycle_told_iff`). A type that only leads to a cycle, or that a cycle leads to, is never told.
-/

namespace ContentModels

namespace Hierarchy

/-- The first fault of identities, of property names and of links, which are checked before
cycles. -/
def linkingFault? (mode : Mode) (types : List ContentType) : Option Fault :=
  let h : Hierarchy := ⟨types.map (noteClashes mode)⟩
  identityFault? [] types <|> types.findSome? (propertyFault? mode) <|>
    h.types.findSome? h.linkFault?

/-- Cycles are checked after links, and elements after cycles. -/
theorem fault?_eq_or (mode : Mode) (types : List ContentType) :
    fault? mode types = (linkingFault? mode types).or
      ((Hierarchy.mk (types.map (noteClashes mode))).cycleFault?.or
        ((types.map (noteClashes mode)).findSome?
          (Hierarchy.mk (types.map (noteClashes mode))).elementFault?)) := by
  simp only [fault?, linkingFault?, Option.orElse_eq_orElse, Option.orElse_eq_or, Option.or_assoc]

/-- The check of identities tells no cycle. -/
theorem identityFault?_ne_cycle {earlier types : List ContentType} {a : String} :
    identityFault? earlier types ≠ some (.cycle a) := by
  induction types generalizing earlier with
  | nil => simp [identityFault?]
  | cons t rest ih =>
    unfold identityFault?
    split
    · simp
    · split
      · simp
      · exact ih

/-- The check of property names tells no cycle. -/
theorem propertyFault?_ne_cycle {mode : Mode} {t : ContentType} {a : String} :
    propertyFault? mode t ≠ some (.cycle a) := by
  rw [propertyFault?]
  split
  · simp
  · split <;> simp

/-- The check of the links of a type tells no cycle. -/
theorem linkFault?_ne_cycle {h : Hierarchy} {t : ContentType} {a : String} :
    h.linkFault? t ≠ some (.cycle a) := by
  have hbase : h.baseFault? t ≠ some (.cycle a) := by
    unfold baseFault?
    split
    · split <;> simp
    · split <;> simp
  have hmixin : ∀ mixin, h.mixinFault? t mixin ≠ some (.cycle a) := by
    intro mixin
    unfold mixinFault?
    split
    · simp
    · split <;> simp
    · simp
  simp only [linkFault?, Option.orElse_eq_orElse, Option.orElse_eq_or, ne_eq, Option.or_eq_some_iff,
    not_or, not_and]
  refine ⟨hbase, fun _ hfound => ?_⟩
  obtain ⟨mixin, -, hfault⟩ := List.exists_of_findSome?_eq_some hfound
  exact hmixin mixin hfault

/-- The check of elements tells no cycle. -/
theorem elementFault?_ne_cycle {h : Hierarchy} {t : ContentType} {a : String} :
    h.elementFault? t ≠ some (.cycle a) := by
  unfold elementFault?
  split
  · simp [Option.or_eq_some_iff]
  · simp

/-- The checks before that for cycles tell no cycle. -/
theorem linkingFault?_ne_cycle {mode : Mode} {types : List ContentType} {a : String} :
    linkingFault? mode types ≠ some (.cycle a) := by
  simp only [linkingFault?, Option.orElse_eq_orElse, Option.orElse_eq_or, ne_eq,
    Option.or_eq_some_iff, not_or, not_and]
  refine ⟨identityFault?_ne_cycle, fun _ => ⟨fun hfound => ?_, fun _ hfound => ?_⟩⟩
  · obtain ⟨t, -, hfault⟩ := List.exists_of_findSome?_eq_some hfound
    exact propertyFault?_ne_cycle hfault
  · obtain ⟨t, -, hfault⟩ := List.exists_of_findSome?_eq_some hfound
    exact linkFault?_ne_cycle hfault

/-- Types are refused for a cycle by the check for cycles, after the checks before it have found
nothing. -/
theorem ofTypes_eq_cycle_iff {mode : Mode} {types : List ContentType} {a : String} :
    ofTypes mode types = .error (.cycle a) ↔
      linkingFault? mode types = none ∧
        (Hierarchy.mk (types.map (noteClashes mode))).cycleFault? = some (.cycle a) := by
  have hfault : ofTypes mode types = .error (.cycle a) ↔ fault? mode types = some (.cycle a) := by
    rw [ofTypes]
    cases fault? mode types <;> simp
  have helement : (types.map (noteClashes mode)).findSome?
      (Hierarchy.mk (types.map (noteClashes mode))).elementFault? ≠ some (.cycle a) := by
    intro hfound
    obtain ⟨t, -, ht⟩ := List.exists_of_findSome?_eq_some hfound
    exact elementFault?_ne_cycle ht
  rw [hfault, fault?_eq_or, Option.or_eq_some_iff, Option.or_eq_some_iff,
    or_iff_right linkingFault?_ne_cycle]
  exact and_congr_right fun _ => or_iff_left fun h => helement h.2

/-- Without a fault before it, keys and identities tell the types apart. -/
theorem nodup_of_linkingFault? {mode : Mode} {types : List ContentType}
    (h : linkingFault? mode types = none) :
    (types.map ContentType.key).Nodup ∧ (types.map ContentType.id).Nodup := by
  simp only [linkingFault?, Option.orElse_eq_orElse, Option.orElse_eq_or,
    Option.or_eq_none_iff] at h
  obtain ⟨hkeys, hids, -⟩ := identityFault?_eq_none_iff.1 h.1
  exact ⟨hkeys, hids⟩

/-- Notes on the properties neither close a cycle of links nor open one. -/
theorem leads_noteClashes_iff {mode : Mode} {types : List ContentType}
    (hkeys : (types.map ContentType.key).Nodup) (hids : (types.map ContentType.id).Nodup)
    {t : ContentType} (ht : t ∈ types) :
    (Hierarchy.mk (types.map (noteClashes mode))).graph.Leads (noteClashes mode t)
        (noteClashes mode t) ↔
      Relation.TransGen (Hierarchy.mk types).HasSupertype t t := by
  have hedge := edge_eq_hasSupertype (h := ⟨types.map (noteClashes mode)⟩)
    (map_key_noteClashes mode types ▸ hkeys) (map_id_noteClashes mode types ▸ hids)
  rw [Digraph.Leads, hedge, transGen_map_iff (noteClashes_eq mode) hkeys]
  refine ⟨fun ⟨u, htu, e⟩ => ?_, fun h => ⟨t, h, rfl⟩⟩
  obtain ⟨_, -, hu⟩ := Relation.TransGen.tail'_iff.1 htu
  exact eq_of_map_eq (noteClashes_eq mode) hkeys ht (mem_of_hasSupertype hu) e ▸ htu

/-- Types are refused for a cycle exactly if the checks before find nothing and a type is a
supertype of itself, directly or through others. The alias that is told is that of such a type,
namely of the one that the search in two phases finds. -/
theorem cycle_told_iff (mode : Mode) (types : List ContentType) :
    ((∃ a, ofTypes mode types = .error (.cycle a)) ↔
        linkingFault? mode types = none ∧
          ∃ t ∈ types, Relation.TransGen (Hierarchy.mk types).HasSupertype t t) ∧
      ∀ a, ofTypes mode types = .error (.cycle a) →
        ∃ t ∈ types, t.aliasName = a ∧
          Relation.TransGen (Hierarchy.mk types).HasSupertype t t ∧
          (Hierarchy.mk (types.map (noteClashes mode))).graph.cycleSearch =
            .some (some (noteClashes mode t)) := by
  have hclosed := (Hierarchy.mk (types.map (noteClashes mode))).graph_closed
  have hnodes : linkingFault? mode types = none → (types.map (noteClashes mode)).Nodup := by
    intro hnone
    have hkeys := map_key_noteClashes mode types ▸ (nodup_of_linkingFault? hnone).1
    exact hkeys.of_map
  have htold : ∀ a, ofTypes mode types = .error (.cycle a) →
      ∃ t ∈ types, t.aliasName = a ∧
        Relation.TransGen (Hierarchy.mk types).HasSupertype t t ∧
        (Hierarchy.mk (types.map (noteClashes mode))).graph.cycleSearch =
          .some (some (noteClashes mode t)) := by
    intro a h
    obtain ⟨hnone, hcycle⟩ := ofTypes_eq_cycle_iff.1 h
    obtain ⟨hkeys, hids⟩ := nodup_of_linkingFault? hnone
    obtain ⟨u, hfound, e⟩ := Option.map_eq_some_iff.1 hcycle
    obtain ⟨hu, hleads⟩ := Digraph.leads_of_cycleNode? (hnodes hnone) hfound
    obtain ⟨t, ht, rfl⟩ := List.mem_map.1 hu
    refine ⟨t, ht, ?_, (leads_noteClashes_iff hkeys hids ht).1 hleads, ?_⟩
    · rw [noteClashes_eq] at e
      exact Fault.cycle.inj e
    · rw [Digraph.cycleSearch_eq hclosed (hnodes hnone), hfound]
  refine ⟨⟨fun ⟨a, h⟩ => ?_, fun ⟨hnone, t, ht, hleads⟩ => ?_⟩, htold⟩
  · obtain ⟨t, ht, -, hleads, -⟩ := htold a h
    exact ⟨(ofTypes_eq_cycle_iff.1 h).1, t, ht, hleads⟩
  · obtain ⟨hkeys, hids⟩ := nodup_of_linkingFault? hnone
    have hcyclic : (Hierarchy.mk (types.map (noteClashes mode))).graph.cycleNode? ≠ none := by
      rw [ne_eq, Digraph.cycleNode?_eq_none_iff hclosed (hnodes hnone)]
      exact fun hacyclic => hacyclic _ (List.mem_map_of_mem ht)
        ((leads_noteClashes_iff hkeys hids ht).2 hleads)
    obtain ⟨u, hfound⟩ := Option.ne_none_iff_exists'.1 hcyclic
    refine ⟨u.aliasName, ofTypes_eq_cycle_iff.2 ⟨hnone, ?_⟩⟩
    rw [cycleFault?, hfound]
    rfl

/-- A page that is composed of navigation, which inherits from the page. An article inherits from
the page, and the navigation is composed of metadata. -/
def loopTypes : List ContentType :=
  [{ id := 1, aliasName := "article", className := "Article", itemType := .content, parentId := 2 },
    { id := 2, aliasName := "page", className := "Page", itemType := .content,
      mixinAliases := ["nav"] },
    { id := 3, aliasName := "meta", className := "Meta", itemType := .content, usage := .mixin },
    { id := 4, aliasName := "nav", className := "Nav", itemType := .content, usage := .mixin,
      baseAlias := some "page", mixinAliases := ["meta"] }]

/-- The navigation is told, not the article, which leads to the cycle, or the metadata, which the
cycle leads to. -/
theorem nav_cycle_told :
    ofTypes .sourceCode loopTypes = .error (.cycle "nav") ∧
      ∃ t ∈ loopTypes, t.aliasName = "nav" ∧
        Relation.TransGen (Hierarchy.mk loopTypes).HasSupertype t t := by
  have hfault : fault? .sourceCode loopTypes = some (.cycle "nav") := by decide +kernel
  have htold : ofTypes .sourceCode loopTypes = .error (.cycle "nav") := by
    unfold ofTypes
    rw [hfault]
  obtain ⟨t, ht, halias, hleads, -⟩ := (cycle_told_iff .sourceCode loopTypes).2 "nav" htold
  exact ⟨htold, t, ht, halias, hleads⟩

end Hierarchy

end ContentModels
