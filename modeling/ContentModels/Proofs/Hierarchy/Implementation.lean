import ContentModels.Hierarchy.Interfaces
import ContentModels.Proofs.Hierarchy.Acceptance

/-!
# Where a mixin is implemented

What a type inherits, declares and implements, said by what it reaches in the graph of the hierarchy
(`mem_inheritedBy_iff`, `mem_implementedBy_iff`), and the consequence for a base chain: of the types
on the chain, exactly one implements a given mixin that the first one reaches
(`implemented_once_on_chain`).

The argument goes from a type to its base. A mixin that the type reaches is either inherited, and
then nothing is left to do for the type itself, or else the type implements it
(`implements_iff_not_inherited`). In the second case no type further down the chain can implement
it, since that type would reach it and the first one would inherit it.
-/

namespace ContentModels

namespace Hierarchy

/-! ## Inheritance -/

/-- A type inherits what its base reaches. -/
theorem mem_inheritedBy_iff {h : Hierarchy} {t u : ContentType} :
    u ∈ h.inheritedBy t ↔ ∃ b, h.baseOf? t = some b ∧ h.graph.Reaches b u := by
  unfold inheritedBy
  cases hb : h.baseOf? t with
  | none => simp
  | some b => simp [mem_closure_iff (mem_of_baseOf? hb)]

/-- With a type, a type inherits all that this one reaches. -/
theorem mem_inheritedBy_of_reaches {h : Hierarchy} {t u v : ContentType}
    (hu : u ∈ h.inheritedBy t) (huv : h.graph.Reaches u v) : v ∈ h.inheritedBy t := by
  obtain ⟨b, hb, hbu⟩ := mem_inheritedBy_iff.1 hu
  exact mem_inheritedBy_iff.2 ⟨b, hb, hbu.trans huv⟩

/-- What a type inherits can be reached from it by one or more edges. -/
theorem leads_of_mem_inheritedBy {h : Hierarchy} {t u : ContentType} (hu : u ∈ h.inheritedBy t) :
    h.graph.Leads t u := by
  obtain ⟨b, hb, hbu⟩ := mem_inheritedBy_iff.1 hu
  exact (edge_of_baseOf? hb).leads hbu

/-- A type reaches itself, what it inherits, and what its mixins reach. -/
theorem reaches_iff_inherits_or_mixin {h : Hierarchy} {t u : ContentType} :
    h.graph.Reaches t u ↔
      u = t ∨ u ∈ h.inheritedBy t ∨ ∃ d ∈ h.mixinsOf t, h.graph.Reaches d u := by
  rw [Digraph.reaches_iff, mem_inheritedBy_iff]
  simp only [edge_iff_baseOf?_or_mem, or_and_right, exists_or]

/-- A type declares the mixins that it does not inherit. -/
theorem mem_declaredBy_iff {h : Hierarchy} {t m : ContentType} :
    m ∈ h.declaredBy t ↔ m ∈ h.mixinsOf t ∧ m ∉ h.inheritedBy t := by
  simp [declaredBy]

/-- A type implements the mixins that its own mixins reach and that it does not inherit. -/
theorem mem_implementedBy_iff {h : Hierarchy} {t m : ContentType} :
    m ∈ h.implementedBy t ↔
      m.isMixin ∧ m ∉ h.inheritedBy t ∧ ∃ d ∈ h.mixinsOf t, h.graph.Reaches d m := by
  simp only [implementedBy, List.mem_eraseDups, List.mem_flatMap, List.mem_filter,
    Bool.and_eq_true, decide_eq_true_eq, mem_declaredBy_iff]
  constructor
  · rintro ⟨d, ⟨hd, -⟩, hdm, hmix, hnot⟩
    exact ⟨hmix, hnot, d, hd, (mem_closure_iff (mem_of_mem_mixinsOf hd)).1 hdm⟩
  · rintro ⟨hmix, hnot, d, hd, hdm⟩
    refine ⟨d, ⟨hd, fun hinherited => ?_⟩, ?_, hmix, hnot⟩
    · exact hnot (mem_inheritedBy_of_reaches hinherited hdm)
    · exact (mem_closure_iff (mem_of_mem_mixinsOf hd)).2 hdm

/-- No mixin is implemented twice by one type. -/
theorem implementedBy_nodup (h : Hierarchy) (t : ContentType) : (h.implementedBy t).Nodup :=
  nodup_eraseDups _

/-- What a type implements can be reached from it by one or more edges. -/
theorem leads_of_mem_implementedBy {h : Hierarchy} {t m : ContentType}
    (hm : m ∈ h.implementedBy t) : h.graph.Leads t m := by
  obtain ⟨-, -, d, hd, hdm⟩ := mem_implementedBy_iff.1 hm
  exact (edge_of_mem_mixinsOf hd).leads hdm

/-- No type of a sound hierarchy implements itself. -/
theorem Sound.not_mem_implementedBy {h : Hierarchy} (hs : h.Sound) (t : ContentType) :
    t ∉ h.implementedBy t := fun ht =>
  hs.acyclic.not_leads h.graph_closed t (leads_of_mem_implementedBy ht)

/-- What a type implements is a type of the hierarchy. -/
theorem mem_of_mem_implementedBy {h : Hierarchy} {t m : ContentType}
    (hm : m ∈ h.implementedBy t) : m ∈ h.types := by
  obtain ⟨-, -, d, hd, hdm⟩ := mem_implementedBy_iff.1 hm
  exact h.graph_closed.mem_of_reaches (mem_of_mem_mixinsOf hd) hdm

/-- Between two mixins that a type implements, it implements all. -/
theorem mem_implementedBy_of_between {h : Hierarchy} {t v w m : ContentType}
    (hv : v ∈ h.implementedBy t) (hvw : h.graph.Reaches v w) (hmix : w.isMixin)
    (hwm : h.graph.Reaches w m) (hm : m ∈ h.implementedBy t) : w ∈ h.implementedBy t := by
  have hnot : m ∉ h.inheritedBy t := (mem_implementedBy_iff.1 hm).2.1
  obtain ⟨-, -, d, hd, hdv⟩ := mem_implementedBy_iff.1 hv
  refine mem_implementedBy_iff.2 ⟨hmix, fun hw => ?_, d, hd, hdv.trans hvw⟩
  exact hnot (mem_inheritedBy_of_reaches hw hwm)

/-- The class of `t` holds the properties of `m`: as its own, or as those of a mixin that it
implements. -/
def Implements (h : Hierarchy) (t m : ContentType) : Prop := m = t ∨ m ∈ h.implementedBy t

/-- What a type implements is reached from it. -/
theorem Implements.reaches {h : Hierarchy} {t m : ContentType} (hm : h.Implements t m) :
    h.graph.Reaches t m := by
  rcases hm with rfl | hm
  · exact Digraph.Reaches.refl m
  · exact (leads_of_mem_implementedBy hm).to_reflTransGen

/-- Of a sound hierarchy, a type implements the mixins that it reaches and does not inherit. -/
theorem implements_iff_not_inherited {h : Hierarchy} (hs : h.Sound) {t m : ContentType}
    (ht : t ∈ h.types) (hmix : m.isMixin) (htm : h.graph.Reaches t m) :
    h.Implements t m ↔ m ∉ h.inheritedBy t := by
  constructor
  · rintro (rfl | hm) hinherited
    · exact hs.acyclic m ht (leads_of_mem_inheritedBy hinherited)
    · exact (mem_implementedBy_iff.1 hm).2.1 hinherited
  · intro hnot
    rcases reaches_iff_inherits_or_mixin.1 htm with rfl | hinherited | hmixin
    · exact .inl rfl
    · exact absurd hinherited hnot
    · exact .inr (mem_implementedBy_iff.2 ⟨hmix, hnot, hmixin⟩)

/-! ## Base chains -/

/-- The base chain of a type: the type, its base, the base of that, and so on up to a type without a
base. -/
inductive BaseChain (h : Hierarchy) : ContentType → List ContentType → Prop
  /-- A type without a base is all of its chain. -/
  | root {t : ContentType} : h.baseOf? t = none → BaseChain h t [t]
  /-- A type with a base stands before the chain of the base. -/
  | step {t b : ContentType} {chain : List ContentType} :
    h.baseOf? t = some b → BaseChain h b chain → BaseChain h t (t :: chain)

/-- A type has one base chain. -/
theorem BaseChain.unique {h : Hierarchy} {t : ContentType} {chain other : List ContentType}
    (hchain : h.BaseChain t chain) (hother : h.BaseChain t other) : other = chain := by
  induction hchain generalizing other with
  | root hnone =>
    cases hother with
    | root _ => rfl
    | step hb _ => rw [hnone] at hb; cases hb
  | step hb _ ih =>
    cases hother with
    | root hnone => rw [hnone] at hb; cases hb
    | step hb' hother =>
      rw [hb] at hb'
      cases hb'
      rw [ih hother]

/-- Of a sound hierarchy, every type has a base chain. -/
theorem Sound.exists_baseChain {h : Hierarchy} (hs : h.Sound) {t : ContentType}
    (ht : t ∈ h.types) : ∃ chain, h.BaseChain t chain := by
  refine Digraph.Acyclic.induction (P := fun t => ∃ chain, h.BaseChain t chain) h.graph_closed
    hs.keys.of_map hs.acyclic (fun t _ ih => ?_) t ht
  cases hb : h.baseOf? t with
  | none => exact ⟨[t], .root hb⟩
  | some b =>
    obtain ⟨chain, hchain⟩ := ih b (.single (edge_of_baseOf? hb))
    exact ⟨t :: chain, .step hb hchain⟩

/-- The types of a base chain are reached from its first. -/
theorem BaseChain.reaches {h : Hierarchy} {t u : ContentType} {chain : List ContentType}
    (hchain : h.BaseChain t chain) (hu : u ∈ chain) : h.graph.Reaches t u := by
  induction hchain with
  | root _ => exact List.mem_singleton.1 hu ▸ Digraph.Reaches.refl _
  | step hb _ ih =>
    rcases List.mem_cons.1 hu with rfl | hu
    · exact Digraph.Reaches.refl _
    · exact (edge_of_baseOf? hb).reaches.trans (ih hu)

/-- Of the types on a base chain, one implements a given mixin that the first reaches, and no
other. -/
theorem BaseChain.exists_unique_implements {h : Hierarchy} (hs : h.Sound) {t m : ContentType}
    {chain : List ContentType} (ht : t ∈ h.types) (hchain : h.BaseChain t chain)
    (hmix : m.isMixin) (htm : h.graph.Reaches t m) :
    ∃ (i : Nat) (u : ContentType), chain[i]? = some u ∧ h.Implements u m ∧
      ∀ (j : Nat) (v : ContentType), chain[j]? = some v → h.Implements v m → j = i := by
  induction hchain with
  | @root t hnone =>
    -- Without a base, nothing is inherited.
    have hnot : m ∉ h.inheritedBy t := fun hm => by
      obtain ⟨b, hb, -⟩ := mem_inheritedBy_iff.1 hm
      rw [hnone] at hb
      cases hb
    refine ⟨0, t, rfl, (implements_iff_not_inherited hs ht hmix htm).2 hnot, ?_⟩
    intro j v hj _
    obtain ⟨hlt, -⟩ := List.getElem?_eq_some_iff.1 hj
    exact Nat.lt_one_iff.1 hlt
  | @step t b chain hb hchain ih =>
    by_cases hinherited : m ∈ h.inheritedBy t
    · -- What the type inherits is implemented further down.
      obtain ⟨b', hb', hbm⟩ := mem_inheritedBy_iff.1 hinherited
      obtain rfl : b = b' := Option.some.inj (hb.symm.trans hb')
      obtain ⟨i, u, hi, hu, hunique⟩ := ih (mem_of_baseOf? hb) hbm
      refine ⟨i + 1, u, hi, hu, fun j v hj hv => ?_⟩
      cases j with
      | zero =>
        obtain rfl : t = v := by simpa using hj
        exact absurd hinherited ((implements_iff_not_inherited hs ht hmix htm).1 hv)
      | succ j => rw [hunique j v hj hv]
    · -- What a type further down implements would be inherited.
      refine ⟨0, t, rfl, (implements_iff_not_inherited hs ht hmix htm).2 hinherited, ?_⟩
      intro j v hj hv
      cases j with
      | zero => rfl
      | succ j =>
        have hbv : h.graph.Reaches b v := hchain.reaches (List.mem_of_getElem? hj)
        exact absurd (mem_inheritedBy_iff.2 ⟨b, hb, hbv.trans hv.reaches⟩) hinherited

/-- Of an accepted hierarchy, every type has one base chain, and each mixin that the type reaches is
implemented at one place of the chain: the type there is the mixin and does not implement it a
second time, or it is another type and implements the mixin once. -/
theorem implemented_once_on_chain {mode : Mode} {types : List ContentType} {h : Hierarchy}
    (hok : ofTypes mode types = .ok h) {t : ContentType} (ht : t ∈ h.types) :
    ∃ chain, h.BaseChain t chain ∧ (∀ other, h.BaseChain t other → other = chain) ∧
      ∀ m, m.isMixin → h.graph.Reaches t m →
        ∃ (i : Nat) (u : ContentType), chain[i]? = some u ∧
          (m = u ∧ m ∉ h.implementedBy u ∨ m ≠ u ∧ (h.implementedBy u).count m = 1) ∧
          ∀ (j : Nat) (v : ContentType), chain[j]? = some v → (m = v ∨ m ∈ h.implementedBy v) →
            j = i := by
  have hs := sound_of_ofTypes hok
  obtain ⟨chain, hchain⟩ := hs.exists_baseChain ht
  refine ⟨chain, hchain, fun other => hchain.unique, fun m hmix htm => ?_⟩
  obtain ⟨i, u, hi, hu, hunique⟩ := hchain.exists_unique_implements hs ht hmix htm
  have hirrefl : m ∈ h.implementedBy u → m ≠ u := by
    rintro hm rfl
    exact hs.acyclic.not_leads h.graph_closed m (leads_of_mem_implementedBy hm)
  refine ⟨i, u, hi, ?_, hunique⟩
  rcases hu with rfl | hm
  · exact .inl ⟨rfl, fun hm => hirrefl hm rfl⟩
  · exact .inr ⟨hirrefl hm, List.count_eq_one_of_mem (h.implementedBy_nodup u) hm⟩

/-- A page that is composed of navigation, which is composed of metadata, and an article that
inherits from it and is composed of metadata too. -/
def articleTypes : List ContentType :=
  [{ id := 1, aliasName := "meta", className := "Meta", itemType := .content, usage := .mixin },
    { id := 2, aliasName := "nav", className := "Nav", itemType := .content,
      usage := .compositionOnly, mixinAliases := ["meta"] },
    { id := 3, aliasName := "page", className := "Page", itemType := .content,
      mixinAliases := ["nav"] },
    { id := 4, aliasName := "article", className := "Article", itemType := .content, parentId := 3,
      mixinAliases := ["meta"] }]

/-- The article's base, the page, implements the metadata, and the article does not. -/
theorem meta_implemented_once_on_chain :
    ofTypes .sourceCode articleTypes = .ok ⟨articleTypes⟩ ∧
      ∃ chain, (Hierarchy.mk articleTypes).BaseChain articleTypes[3] chain ∧
        ∃ (i : Nat) (u : ContentType), chain[i]? = some u ∧
          (articleTypes[0] = u ∧ articleTypes[0] ∉ (Hierarchy.mk articleTypes).implementedBy u ∨
            articleTypes[0] ≠ u ∧
              ((Hierarchy.mk articleTypes).implementedBy u).count articleTypes[0] = 1) := by
  have hok : ofTypes .sourceCode articleTypes = .ok ⟨articleTypes⟩ :=
    ofTypes_sourceCode_eq_ok (by decide +kernel)
  have ht : articleTypes[3] ∈ articleTypes := by decide
  have hreaches : (Hierarchy.mk articleTypes).graph.Reaches articleTypes[3] articleTypes[0] :=
    (mem_closure_iff ht).1 (by decide +kernel)
  obtain ⟨chain, hchain, -, hmixin⟩ := implemented_once_on_chain hok ht
  obtain ⟨i, u, hi, hu, -⟩ := hmixin articleTypes[0] rfl hreaches
  exact ⟨hok, chain, hchain, i, u, hi, hu⟩

end Hierarchy

end ContentModels
