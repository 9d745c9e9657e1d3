import ContentModels.Proofs.Digraph.Preorder
import ContentModels.Proofs.Hierarchy.Implementation

/-!
# The order of supertypes

The closure of a type is the preorder of a recursive visit: first the type, then what its base leads
to, then what each of its mixins leads to, and nothing twice (`closure_iff_visits`). A loop on a
stack meets the types in the same order. What a type inherits is the closure of its base, and what
it implements are the closures of its mixins one after the other, without what it inherits.
-/

namespace ContentModels

namespace Hierarchy

/-- Of two types of a sound hierarchy, the first inherits the second if its base reaches it. -/
theorem Sound.inherits_iff {h : Hierarchy} (hs : h.Sound) {t u : ContentType} (ht : t ∈ h.types)
    (hu : u ∈ h.types) : h.inherits t u ↔ u ∈ h.inheritedBy t := by
  rw [inherits, own?_eq_some_of_mem hs.keys ht, own?_eq_some_of_mem hs.keys hu, decide_eq_true_eq]

/-- In a sound hierarchy, what is reached along edges is reached by bases and mixins. -/
theorem Sound.reaches_iff {h : Hierarchy} (hs : h.Sound) {t u : ContentType} :
    h.graph.Reaches t u ↔ Relation.ReflTransGen h.HasSupertype t u := by
  rw [Digraph.Reaches, edge_eq_hasSupertype hs.keys hs.ids]

/-- In a sound hierarchy, the edges of a type lead to its base first, and then to what its mixin
aliases mean, in their order and to each type once. -/
theorem Sound.exists_successors_eq {h : Hierarchy} (hs : h.Sound) {t : ContentType}
    (ht : t ∈ h.types) :
    ∃ (base : Option ContentType) (mixins : List ContentType),
      (∀ b, base = some b ↔ h.HasBase t b) ∧ List.Forall₂ (h.Means t) t.mixinAliases mixins ∧
        h.graph.successors t = base.toList ++ mixins.eraseDups := by
  have hmeant : ∀ aliases : List String, (∀ a ∈ aliases, ∃ m, h.Means t a m) →
      List.Forall₂ (h.Means t) aliases
        (aliases.filterMap fun a => sole? (h.meant t.itemType a)) := by
    intro aliases hall
    induction aliases with
    | nil => exact .nil
    | cons a aliases ih =>
      obtain ⟨⟨m, hm⟩, hrest⟩ := List.forall_mem_cons.1 hall
      rw [List.filterMap_cons, (sole?_meant_iff hs.keys).2 hm]
      exact .cons hm (ih hrest)
  exact ⟨h.baseOf? t, _, fun b => baseOf?_eq_some_iff hs.keys hs.ids,
    hmeant t.mixinAliases (hs.linked.mixins t ht), rfl⟩

/-- A type implements, of what its own mixins reach one after the other, the mixins that it does not
inherit, each at its first occurrence. -/
theorem Sound.implementedBy_eq {h : Hierarchy} (hs : h.Sound) {t : ContentType}
    (ht : t ∈ h.types) :
    h.implementedBy t =
      ((((h.mixinsOf t).filter fun d => !h.inherits t d).flatMap h.closure).filter
        fun m => m.isMixin && !h.inherits t m).eraseDups := by
  have hinherits : ∀ u ∈ h.types, (!h.inherits t u) = decide (u ∉ h.inheritedBy t) := by
    intro u hu
    have hiff := hs.inherits_iff ht hu
    by_cases hmem : u ∈ h.inheritedBy t <;> simp_all
  have hdeclared : h.declaredBy t = (h.mixinsOf t).filter fun d => !h.inherits t d :=
    List.filter_congr fun d hd => (hinherits d (mem_of_mem_mixinsOf hd)).symm
  rw [implementedBy, ← hdeclared, List.filter_flatMap]
  congr 1
  refine List.flatMap_congr fun d hd => List.filter_congr fun m hm => ?_
  have hdtypes : d ∈ h.types := mem_of_mem_mixinsOf (mem_declaredBy_iff.1 hd).1
  have hmtypes : m ∈ h.types :=
    h.graph_closed.mem_of_reaches hdtypes ((mem_closure_iff hdtypes).1 hm)
  rw [hinherits m hmtypes]

/-- Of an accepted hierarchy, the closure of a type is what the recursive visit meets from it, base
before mixins, and so does the search with a stack; it holds what the type reaches by zero or more
bases and mixins, each once. A type inherits what its base reaches, and implements what its mixins
that it does not inherit reach, in the order of their closures and each at its first occurrence, as
far as these are mixins that it does not inherit. -/
theorem closure_iff_visits {mode : Mode} {types : List ContentType} {h : Hierarchy}
    (hok : ofTypes mode types = .ok h) :
    (∀ t ∈ h.types,
      (∃ (base : Option ContentType) (mixins : List ContentType),
        (∀ b, base = some b ↔ h.HasBase t b) ∧ List.Forall₂ (h.Means t) t.mixinAliases mixins ∧
          h.graph.successors t = base.toList ++ mixins.eraseDups) ∧
        (∀ met, h.graph.Visits [] [t] met ↔ met = h.closure t) ∧
        h.graph.search [] [t] = .some (h.closure t) ∧ (h.closure t).Nodup ∧
        ∀ u, u ∈ h.closure t ↔ Relation.ReflTransGen h.HasSupertype t u) ∧
      (∀ t ∈ h.types, ∀ u ∈ h.types, h.inherits t u ↔
        ∃ b, h.HasBase t b ∧ Relation.ReflTransGen h.HasSupertype b u) ∧
      ∀ t ∈ h.types,
        h.implementedBy t =
          ((((h.mixinsOf t).filter fun d => !h.inherits t d).flatMap h.closure).filter
            fun m => m.isMixin && !h.inherits t m).eraseDups := by
  have hs := sound_of_ofTypes hok
  refine ⟨fun t ht => ?_, fun t ht u hu => ?_, fun t ht => hs.implementedBy_eq ht⟩
  · obtain ⟨hvisits, hsearch⟩ :=
      Digraph.visits_and_search_eq_preorder h.graph_closed hs.keys.of_map ht
    have hnodup : (h.closure t).Nodup := h.graph.walk_nodup hs.keys.of_map [t]
    refine ⟨hs.exists_successors_eq ht, hvisits, hsearch, hnodup, fun u => ?_⟩
    rw [mem_closure_iff ht, hs.reaches_iff]
  · simp only [hs.inherits_iff ht hu, mem_inheritedBy_iff, baseOf?_eq_some_iff hs.keys hs.ids,
      hs.reaches_iff]

/-- From the article, the page and what it is composed of come before the article's own mixin, the
metadata, which has been met by then. -/
theorem article_visited :
    ofTypes .sourceCode articleTypes = .ok ⟨articleTypes⟩ ∧
      (Hierarchy.mk articleTypes).graph.Visits [] [articleTypes[3]]
        [articleTypes[3], articleTypes[2], articleTypes[1], articleTypes[0]] := by
  have hok : ofTypes .sourceCode articleTypes = .ok ⟨articleTypes⟩ :=
    ofTypes_sourceCode_eq_ok (by decide +kernel)
  have hclosure : (Hierarchy.mk articleTypes).closure articleTypes[3] =
      [articleTypes[3], articleTypes[2], articleTypes[1], articleTypes[0]] := by decide +kernel
  obtain ⟨-, hvisits, -⟩ := (closure_iff_visits hok).1 articleTypes[3] (by decide)
  exact ⟨hok, (hvisits _).2 hclosure.symm⟩

end Hierarchy

end ContentModels
