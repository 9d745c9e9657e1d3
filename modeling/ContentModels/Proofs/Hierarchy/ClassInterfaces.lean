import ContentModels.Proofs.Hierarchy.Implementation
import ContentModels.Source.Outline

/-!
# The interfaces of a class

A class implements the properties of its mixins by passing itself to getters that take the mixin's
interface, so it has to have that interface. `Hierarchy.HasInterface` collects the interfaces of a
class from the headers that are written: its own, those of the interfaces named there, and those of
its base classes.

The headers follow compositions, and inheritance only from a generated mixin to another one, while
what a class implements follows both wherever they lead. `hasInterface_iff_chain` says which
interfaces of implemented mixins the class has, and that it has all of them if no base outside the
headers leads to one. Otherwise one can be missing (`page_lacks_meta`).
-/

namespace ContentModels

namespace Hierarchy

/-! ## Headers -/

/-- The class of a type has the interface of a mixin. -/
inductive HasInterface (h : Hierarchy) : ContentType → ContentType → Prop
  /-- The header of the class names the interface. -/
  | header {t g : ContentType} : .modelInterface g ∈ h.classSupertypes t → HasInterface h t g
  /-- The header of an interface that the class has names the interface. -/
  | extended {t g m : ContentType} :
    HasInterface h t g → .modelInterface m ∈ h.interfaceSupertypes g → HasInterface h t m
  /-- The class of the base has the interface. -/
  | inherited {t b m : ContentType} :
    h.baseOf? t = some b → HasInterface h b m → HasInterface h t m

/-- In the place of `m`, which no model is generated for, stands its own mixin `n`. -/
def LiftStep (h : Hierarchy) (m n : ContentType) : Prop :=
  h.isGenerated m = false ∧ n ∈ h.mixinsOf m

/-- The interface of `g` stands for a mixin of `t`: it is generated, `t` does not inherit it, and
only mixins without a model lie between the mixin and `g`. -/
def Lifts (h : Hierarchy) (t g : ContentType) : Prop :=
  h.isGenerated g ∧ g ∉ h.inheritedBy t ∧ ∃ d ∈ h.mixinsOf t, Relation.ReflTransGen h.LiftStep d g

/-- The header of the interface of `g` names that of `m`. -/
def Extends (h : Hierarchy) (g m : ContentType) : Prop :=
  .modelInterface m ∈ h.interfaceSupertypes g

/-- What stands in the place of a mixin is reached from it. -/
theorem reaches_of_liftStep {h : Hierarchy} {m n : ContentType}
    (hmn : Relation.ReflTransGen h.LiftStep m n) : h.graph.Reaches m n :=
  Relation.ReflTransGen.mono (fun _ _ hstep => edge_of_mem_mixinsOf hstep.2) m n hmn

/-- What stands for a mixin of a type is reached from the type. -/
theorem Lifts.reaches {h : Hierarchy} {t g : ContentType} (hg : h.Lifts t g) :
    h.graph.Reaches t g := by
  obtain ⟨-, -, d, hd, hdg⟩ := hg
  exact (edge_of_mem_mixinsOf hd).reaches.trans (reaches_of_liftStep hdg)

/-- In the graph of what is lifted, an edge leads from a mixin that is neither generated nor
inherited to what stands in its place. -/
theorem liftingGraph_edge_iff {h : Hierarchy} {t m n : ContentType} :
    (h.liftingGraph t).Edge m n ↔ m ∉ h.inheritedBy t ∧ h.LiftStep m n := by
  unfold Digraph.Edge liftingGraph LiftStep
  by_cases hm : m ∈ h.inheritedBy t
  · simp [hm]
  · cases hgen : h.isGenerated m <;> simp [hm, hgen]

/-- The graph of what is lifted is closed. -/
theorem liftingGraph_closed (h : Hierarchy) (t : ContentType) : (h.liftingGraph t).Closed :=
  fun _ _ hmn => mem_of_mem_mixinsOf (liftingGraph_edge_iff.1 hmn).2.2

/-- The lifted mixins are those whose interfaces stand for a mixin of the type. -/
theorem mem_lifted_iff {h : Hierarchy} {t g : ContentType} : g ∈ h.lifted t ↔ h.Lifts t g := by
  have hstack : ∀ d ∈ h.declaredBy t, d ∈ (h.liftingGraph t).nodes := fun d hd =>
    mem_of_mem_mixinsOf (mem_declaredBy_iff.1 hd).1
  have hwalk : g ∈ (h.liftingGraph t).walk h.types (h.declaredBy t) ↔
      ∃ d ∈ h.declaredBy t, (h.liftingGraph t).Reaches d g :=
    Digraph.mem_walk_iff (h.liftingGraph_closed t) hstack
  simp only [lifted, (sortBy_perm _ _).mem_iff, List.mem_filter, hwalk, Bool.and_eq_true,
    decide_eq_true_eq, Lifts]
  constructor
  · rintro ⟨⟨d, hd, hdg⟩, hgen, hnot⟩
    refine ⟨hgen, hnot, d, (mem_declaredBy_iff.1 hd).1, ?_⟩
    exact Relation.ReflTransGen.mono (fun _ _ hedge => (liftingGraph_edge_iff.1 hedge).2) d g hdg
  · rintro ⟨hgen, hnot, d, hd, hdg⟩
    -- Nothing on the way to `g` is inherited, since `g` would be inherited with it.
    have hway : d ∉ h.inheritedBy t ∧ (h.liftingGraph t).Reaches d g := by
      clear hd
      induction hdg using Relation.ReflTransGen.head_induction_on with
      | refl => exact ⟨hnot, Digraph.Reaches.refl g⟩
      | head hstep _ ih =>
        have hm := fun hm =>
          ih.1 (mem_inheritedBy_of_reaches hm (reaches_of_liftStep (.single hstep)))
        exact ⟨hm, (liftingGraph_edge_iff.2 ⟨hm, hstep⟩).reaches.trans ih.2⟩
    exact ⟨⟨d, mem_declaredBy_iff.2 ⟨hd, hway.1⟩, hway.2⟩, hgen, hnot⟩

/-- The header of a class names the type's own interface if it is a mixin, and otherwise those that
stand for its mixins. -/
theorem modelInterface_mem_classSupertypes_iff {h : Hierarchy} {t g : ContentType} :
    .modelInterface g ∈ h.classSupertypes t ↔
      t.isMixin ∧ g = t ∨ t.isMixin = false ∧ h.Lifts t g := by
  unfold classSupertypes
  rw [← mem_lifted_iff]
  cases t.isMixin <;> cases h.baseOf? t <;> simp

/-- The header of an interface names that of the base, if the base is a generated mixin, and those
that stand for the mixins. -/
theorem extends_iff {h : Hierarchy} {g m : ContentType} :
    h.Extends g m ↔ (h.baseOf? g = some m ∧ m.isMixin ∧ h.isGenerated m) ∨ h.Lifts g m := by
  have hkept : ∀ b, (h.baseOf? g).filter (fun b => b.isMixin && h.isGenerated b) = some b ↔
      h.baseOf? g = some b ∧ b.isMixin ∧ h.isGenerated b := by
    simp [Option.filter_eq_some_iff]
  unfold Extends interfaceSupertypes
  rw [← mem_lifted_iff, ← hkept]
  cases (h.baseOf? g).filter fun b => b.isMixin && h.isGenerated b with
  | none => simp
  | some b => simp [eq_comm]

/-- What the header of an interface names is reached from its mixin. -/
theorem Extends.reaches {h : Hierarchy} {g m : ContentType} (hgm : h.Extends g m) :
    h.graph.Reaches g m := by
  rcases extends_iff.1 hgm with ⟨hb, -⟩ | hlifts
  · exact (edge_of_baseOf? hb).reaches
  · exact hlifts.reaches

/-- What is named in headers, one interface after the other, is reached from the first mixin. -/
theorem reaches_of_extends {h : Hierarchy} {g m : ContentType}
    (hgm : Relation.ReflTransGen h.Extends g m) : h.graph.Reaches g m := by
  induction hgm with
  | refl => exact Digraph.Reaches.refl g
  | tail _ hstep ih => exact ih.trans hstep.reaches

/-! ## The interfaces that a class has -/

/-- A class has the interfaces that stand for its mixins, and what these extend. -/
theorem Lifts.hasInterface {h : Hierarchy} {t g m : ContentType} (hg : h.Lifts t g)
    (hgm : Relation.ReflTransGen h.Extends g m) : h.HasInterface t m := by
  induction hgm with
  | refl =>
    cases hmix : t.isMixin with
    | true =>
      have hown : h.HasInterface t t :=
        .header (modelInterface_mem_classSupertypes_iff.2 (.inl ⟨hmix, rfl⟩))
      exact hown.extended (extends_iff.2 (.inr hg))
    | false => exact .header (modelInterface_mem_classSupertypes_iff.2 (.inr ⟨hmix, hg⟩))
  | tail _ hstep ih => exact ih.extended hstep

/-- An interface of a class is its own, or that of an inherited mixin, or one that interfaces which
stand for its mixins lead to. -/
theorem HasInterface.own_or_inherited_or_chain {h : Hierarchy} {t m : ContentType}
    (hm : h.HasInterface t m) :
    m = t ∨ m ∈ h.inheritedBy t ∨ ∃ g, h.Lifts t g ∧ Relation.ReflTransGen h.Extends g m := by
  induction hm with
  | header hmem =>
    rcases modelInterface_mem_classSupertypes_iff.1 hmem with ⟨-, rfl⟩ | ⟨-, hlifts⟩
    · exact .inl rfl
    · exact .inr (.inr ⟨_, hlifts, .refl⟩)
  | extended _ hmem ih =>
    rcases ih with rfl | hinherited | ⟨g, hlifts, hchain⟩
    · rcases extends_iff.1 hmem with ⟨hb, -⟩ | hlifts
      · exact .inr (.inl (mem_inheritedBy_iff.2 ⟨_, hb, Digraph.Reaches.refl _⟩))
      · exact .inr (.inr ⟨_, hlifts, .refl⟩)
    · exact .inr (.inl (mem_inheritedBy_of_reaches hinherited (Extends.reaches hmem)))
    · exact .inr (.inr ⟨g, hlifts, hchain.tail hmem⟩)
  | @inherited t b m hb _ ih =>
    have hbm : h.graph.Reaches b m := by
      rcases ih with rfl | hinherited | ⟨g, hlifts, hchain⟩
      · exact Digraph.Reaches.refl m
      · exact (leads_of_mem_inheritedBy hinherited).to_reflTransGen
      · exact hlifts.reaches.trans (reaches_of_extends hchain)
    exact .inr (.inl (mem_inheritedBy_iff.2 ⟨b, hb, hbm⟩))

/-! ## The interfaces of what a class implements -/

/-- Where something that `t` implements has a base, the headers name it or it matters to no getter:
both are generated mixins, or the base leads to no generated mixin that `t` implements. -/
def BasesNamed (h : Hierarchy) (t : ContentType) : Prop :=
  ∀ v ∈ h.implementedBy t, ∀ b, h.baseOf? v = some b →
    (h.isGenerated v ∧ b.isMixin ∧ h.isGenerated b) ∨
      ∀ m ∈ h.implementedBy t, h.isGenerated m → ¬ h.graph.Reaches b m

section BasesNamed

variable {h : Hierarchy} {t m : ContentType} (hs : h.Sound) (hbases : h.BasesNamed t)
  (hm : m ∈ h.implementedBy t) (hgen : h.isGenerated m)
include hs hbases hm hgen

/-- Between a mixin that a type implements and another one that it reaches, some generated mixin
stands for the first. -/
theorem BasesNamed.exists_liftStep {d : ContentType} (hd : d ∈ h.implementedBy t)
    (hdm : h.graph.Reaches d m) :
    ∃ g ∈ h.implementedBy t, h.isGenerated g ∧ Relation.ReflTransGen h.LiftStep d g ∧
      h.graph.Reaches g m := by
  induction hdm using Relation.ReflTransGen.head_induction_on with
  | refl => exact ⟨m, hm, hgen, .refl, Digraph.Reaches.refl m⟩
  | @head v w hstep hrest ih =>
    -- The first generated mixin on the way stands for the one at its start.
    cases hv : h.isGenerated v with
    | true => exact ⟨v, hd, hv, .refl, hrest.head hstep⟩
    | false =>
      rcases edge_iff_baseOf?_or_mem.1 hstep with hb | hmixin
      · -- No header names the base of a mixin without a model.
        rcases hbases v hd w hb with ⟨hgenerated, -⟩ | hlost
        · rw [hv] at hgenerated
          cases hgenerated
        · exact absurd hrest (hlost m hm hgen)
      · have hmix : w.isMixin := hs.isMixin (mem_of_mem_implementedBy hd) hmixin
        have hw : w ∈ h.implementedBy t :=
          mem_implementedBy_of_between hd (Digraph.Edge.reaches hstep) hmix hrest hm
        obtain ⟨g, hg, hgg, hwg, hgm⟩ := ih hw
        exact ⟨g, hg, hgg, hwg.head ⟨hv, hmixin⟩, hgm⟩

/-- The headers lead from a generated mixin that a type implements to all those that it reaches. -/
theorem BasesNamed.extends {v : ContentType} (hv : v ∈ h.implementedBy t)
    (hvgen : h.isGenerated v) (hvm : h.graph.Reaches v m) :
    Relation.ReflTransGen h.Extends v m := by
  refine Digraph.Acyclic.induction (P := fun v => v ∈ h.implementedBy t → h.isGenerated v →
    h.graph.Reaches v m → Relation.ReflTransGen h.Extends v m) h.graph_closed hs.keys.of_map
    hs.acyclic (fun v _ ih hv hvgen hvm => ?_) v (mem_of_mem_implementedBy hv) hv hvgen hvm
  by_cases hinherited : m ∈ h.inheritedBy v
  · -- The base leads to the mixin, so the header names it.
    obtain ⟨b, hb, hbm⟩ := mem_inheritedBy_iff.1 hinherited
    have hedge : h.graph.Edge v b := edge_of_baseOf? hb
    rcases hbases v hv b hb with ⟨-, hmix, hbgen⟩ | hlost
    · have hbt : b ∈ h.implementedBy t :=
        mem_implementedBy_of_between hv hedge.reaches hmix hbm hm
      exact (ih b (.single hedge) hbt hbgen hbm).head (extends_iff.2 (.inl ⟨hb, hmix, hbgen⟩))
    · exact absurd hbm (hlost m hm hgen)
  · rcases reaches_iff_inherits_or_mixin.1 hvm with rfl | hmem | ⟨d, hd, hdm⟩
    · exact .refl
    · exact absurd hmem hinherited
    · -- What stands for the mixin is not inherited either, so the header names it.
      have hedge : h.graph.Edge v d := edge_of_mem_mixinsOf hd
      have hmix : d.isMixin := hs.isMixin (mem_of_mem_implementedBy hv) hd
      have hdt : d ∈ h.implementedBy t :=
        mem_implementedBy_of_between hv hedge.reaches hmix hdm hm
      obtain ⟨g, hg, hggen, hdg, hgm⟩ := hbases.exists_liftStep hs hm hgen hdt hdm
      have hgnot : g ∉ h.inheritedBy v := fun hmem =>
        hinherited (mem_inheritedBy_of_reaches hmem hgm)
      have hlifts : h.Lifts v g := ⟨hggen, hgnot, d, hd, hdg⟩
      have hleads : h.graph.Leads v g := hedge.leads (reaches_of_liftStep hdg)
      exact (ih g hleads hg hggen hgm).head (extends_iff.2 (.inr hlifts))

/-- Interfaces that stand for the mixins of a type lead to those of all that it implements. -/
theorem BasesNamed.exists_chain (ht : t ∈ h.types) :
    ∃ g, h.Lifts t g ∧ Relation.ReflTransGen h.Extends g m := by
  obtain ⟨-, hnot, d, hd, hdm⟩ := mem_implementedBy_iff.1 hm
  have hdnot : d ∉ h.inheritedBy t := fun hmem => hnot (mem_inheritedBy_of_reaches hmem hdm)
  have hdt : d ∈ h.implementedBy t :=
    mem_implementedBy_iff.2 ⟨hs.isMixin ht hd, hdnot, d, hd, Digraph.Reaches.refl d⟩
  obtain ⟨g, hg, hggen, hdg, hgm⟩ := hbases.exists_liftStep hs hm hgen hdt hdm
  have hgnot : g ∉ h.inheritedBy t := (mem_implementedBy_iff.1 hg).2.1
  exact ⟨g, ⟨hggen, hgnot, d, hd, hdg⟩, hbases.extends hs hm hgen hg hggen hgm⟩

end BasesNamed

/-- Of an accepted hierarchy, the class of a type has the interface of a mixin that it implements
exactly if interfaces that stand for its own mixins lead to it. They do where the headers name the
bases of what the type implements. -/
theorem hasInterface_iff_chain {mode : Mode} {types : List ContentType} {h : Hierarchy}
    (hok : ofTypes mode types = .ok h) {t m : ContentType} (ht : t ∈ h.types)
    (hm : m ∈ h.implementedBy t) (hgen : h.isGenerated m) :
    (h.HasInterface t m ↔ ∃ g, h.Lifts t g ∧ Relation.ReflTransGen h.Extends g m) ∧
      (h.BasesNamed t → h.HasInterface t m) := by
  have hs := sound_of_ofTypes hok
  have hiff : h.HasInterface t m ↔ ∃ g, h.Lifts t g ∧ Relation.ReflTransGen h.Extends g m := by
    constructor
    · intro hmember
      rcases hmember.own_or_inherited_or_chain with rfl | hinherited | hchain
      · exact absurd (leads_of_mem_implementedBy hm) (hs.acyclic.not_leads h.graph_closed m)
      · exact absurd hinherited (mem_implementedBy_iff.1 hm).2.1
      · exact hchain
    · rintro ⟨g, hlifts, hchain⟩
      exact hlifts.hasInterface hchain
  exact ⟨hiff, fun hbases => hiff.2 (hbases.exists_chain hs hm hgen ht)⟩

/-- The class of the page has the interface of the metadata, which the navigation is composed of. -/
theorem page_has_meta :
    ofTypes .sourceCode articleTypes = .ok ⟨articleTypes⟩ ∧
      articleTypes[0] ∈ (Hierarchy.mk articleTypes).implementedBy articleTypes[2] ∧
      (Hierarchy.mk articleTypes).HasInterface articleTypes[2] articleTypes[0] := by
  have hok : ofTypes .sourceCode articleTypes = .ok ⟨articleTypes⟩ :=
    ofTypes_sourceCode_eq_ok (by decide +kernel)
  have ht : articleTypes[2] ∈ articleTypes := by decide
  have hm : articleTypes[0] ∈ (Hierarchy.mk articleTypes).implementedBy articleTypes[2] := by
    decide +kernel
  have hbase : ∀ v ∈ articleTypes.take 3, (Hierarchy.mk articleTypes).baseOf? v = none := by
    decide +kernel
  have hbases : (Hierarchy.mk articleTypes).BasesNamed articleTypes[2] := by
    intro v hv b hb
    have hfirst : ∀ v ∈ (Hierarchy.mk articleTypes).implementedBy articleTypes[2],
        v ∈ articleTypes.take 3 := by decide +kernel
    rw [hbase v (hfirst v hv)] at hb
    cases hb
  exact ⟨hok, hm, (hasInterface_iff_chain hok ht hm (by decide +kernel)).2 hbases⟩

/-- A page that is composed of navigation, for which no model is generated. The navigation inherits
from an ordinary type that is composed of metadata. -/
def navTypes : List ContentType :=
  [{ id := 1, aliasName := "meta", className := "Meta", itemType := .content, usage := .mixin,
      properties := [{ aliasName := "keywords", memberName := "Keywords", type := .string }] },
    { id := 2, aliasName := "shared", className := "Shared", itemType := .content,
      mixinAliases := ["meta"] },
    { id := 3, aliasName := "nav", className := "Nav", itemType := .content,
      usage := .compositionOnly, parentId := 2 },
    { id := 4, aliasName := "page", className := "Page", itemType := .content,
      mixinAliases := ["nav"] }]

/-- The page is accepted and generated, and implements the metadata, which is generated, but its
class does not have the interface that the getters of the metadata take. -/
theorem page_lacks_meta :
    ofTypes .sourceCode navTypes = .ok ⟨navTypes⟩ ∧
      (Hierarchy.mk navTypes).isGenerated navTypes[3] ∧
      (Hierarchy.mk navTypes).isGenerated navTypes[0] ∧
      navTypes[0] ∈ (Hierarchy.mk navTypes).implementedBy navTypes[3] ∧
      ¬ (Hierarchy.mk navTypes).HasInterface navTypes[3] navTypes[0] := by
  have hok : ofTypes .sourceCode navTypes = .ok ⟨navTypes⟩ :=
    ofTypes_sourceCode_eq_ok (by decide +kernel)
  refine ⟨hok, by decide +kernel, by decide +kernel, by decide +kernel, fun hmember => ?_⟩
  have hlifted : (Hierarchy.mk navTypes).lifted navTypes[3] = [] := by decide +kernel
  have hinherited : navTypes[0] ∉ (Hierarchy.mk navTypes).inheritedBy navTypes[3] := by
    decide +kernel
  rcases hmember.own_or_inherited_or_chain with heq | hmem | ⟨g, hlifts, -⟩
  · exact absurd heq (by decide +kernel)
  · exact hinherited hmem
  · exact List.not_mem_nil (hlifted ▸ mem_lifted_iff.2 hlifts)

end Hierarchy

end ContentModels
