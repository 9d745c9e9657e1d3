import ContentModels.Proofs.Hierarchy.Closure
import ContentModels.Proofs.Hierarchy.Members
import ContentModels.Proofs.Sorting

/-!
# Lifting by a loop

Which interfaces stand for the mixins that a type declares can be found by a loop that keeps no list
of what it has met: it takes a mixin from a stack, passes over one that is inherited, lists one that
is generated, and puts on the stack what any other one is composed of. `Hierarchy.liftFrom` is this
loop.

That it ends is shown by induction along the links, which lead in no circle: the loop comes to the
end of what it puts on the stack for a mixin before it goes on with the rest (`Handles`), and has by
then listed all that stands for the mixin and is not inherited. Passing over an inherited mixin
loses nothing, since all that it reaches is inherited too. Sorted by class name, the loop lists what
`Hierarchy.lifted` does.
-/

namespace ContentModels

namespace Hierarchy

/-! ## The loop -/

/-- Takes the uppermost mixin from the stack, and is done if there is none. One that `t` inherits is
passed over, one that is generated is listed unless it is already, and any other one is replaced by
its own mixins, of which the last comes to lie on top. -/
def liftingStep (h : Hierarchy) (t : ContentType) :
    List ContentType × List ContentType →
      List ContentType ⊕ List ContentType × List ContentType
  | (listed, []) => .inl listed
  | (listed, m :: rest) =>
    if h.inherits t m then .inr (listed, rest)
    else if h.isGenerated m then .inr (if m ∈ listed then listed else listed ++ [m], rest)
    else .inr (listed, (h.mixinsOf m).reverse ++ rest)

/-- What the loop lists, given what has been listed before and the stack. -/
def liftFrom (h : Hierarchy) (t : ContentType) (listed stack : List ContentType) :
    Part (List ContentType) :=
  loop (h.liftingStep t) (listed, stack)

section Steps

variable {h : Hierarchy} {t m : ContentType} {listed rest : List ContentType}

/-- The loop ends when the stack is empty. -/
theorem liftFrom_nil : h.liftFrom t listed [] = .some listed := loop_eq_some rfl

/-- The loop passes over an inherited mixin. -/
theorem liftFrom_of_inherits (hm : h.inherits t m) :
    h.liftFrom t listed (m :: rest) = h.liftFrom t listed rest :=
  loop_eq_loop (if_pos hm)

/-- The loop lists a generated mixin once. -/
theorem liftFrom_of_isGenerated (hm : ¬ h.inherits t m) (hgen : h.isGenerated m) :
    h.liftFrom t listed (m :: rest) =
      h.liftFrom t (if m ∈ listed then listed else listed ++ [m]) rest :=
  loop_eq_loop ((if_neg hm).trans (if_pos hgen))

/-- In the place of any other mixin, the loop comes to what that is composed of. -/
theorem liftFrom_of_not_isGenerated (hm : ¬ h.inherits t m) (hgen : h.isGenerated m = false) :
    h.liftFrom t listed (m :: rest) = h.liftFrom t listed ((h.mixinsOf m).reverse ++ rest) :=
  loop_eq_loop ((if_neg hm).trans (if_neg (Bool.eq_false_iff.1 hgen)))

end Steps

/-- A list has grown by the generated mixins that stand for the given ones and that `t` does not
inherit. -/
structure Grows (h : Hierarchy) (t : ContentType) (mixins before after : List ContentType) :
    Prop where
  /-- Nothing is listed twice. -/
  nodup : before.Nodup → after.Nodup
  /-- What was listed before is listed still, and what has been added stands for one of the
  mixins. -/
  mem_iff : ∀ g, g ∈ after ↔ g ∈ before ∨
    h.isGenerated g ∧ g ∉ h.inheritedBy t ∧ ∃ m ∈ mixins, Relation.ReflTransGen h.LiftStep m g

/-- Whatever lies below the given mixins, the loop comes to it, with all listed that stands for
them. -/
def Handles (h : Hierarchy) (t : ContentType) (mixins : List ContentType) : Prop :=
  ∀ before rest, ∃ after,
    h.liftFrom t before (mixins ++ rest) = h.liftFrom t after rest ∧ h.Grows t mixins before after

/-- A list that grows twice grows by what stands for either. -/
theorem Grows.append {h : Hierarchy} {t : ContentType} {mixins others before between after :
    List ContentType} (hfirst : h.Grows t mixins before between)
    (hsecond : h.Grows t others between after) : h.Grows t (mixins ++ others) before after where
  nodup := hsecond.nodup ∘ hfirst.nodup
  mem_iff g := by
    simp only [hsecond.mem_iff, hfirst.mem_iff, List.mem_append, or_and_right, exists_or,
      and_or_left, or_assoc]

/-- The loop comes to the end of several mixins if it does so for each. -/
theorem handles_of_forall {h : Hierarchy} {t : ContentType} {mixins : List ContentType}
    (hall : ∀ m ∈ mixins, h.Handles t [m]) : h.Handles t mixins := by
  induction mixins with
  | nil => exact fun before rest => ⟨before, rfl, id, by simp⟩
  | cons m others ih =>
    obtain ⟨hm, hothers⟩ := List.forall_mem_cons.1 hall
    intro before rest
    obtain ⟨between, hrun, hgrows⟩ := hm before (others ++ rest)
    obtain ⟨after, hrun', hgrows'⟩ := ih hothers between rest
    exact ⟨after, hrun.trans hrun', hgrows.append hgrows'⟩

/-- What stands for a generated mixin is the mixin alone. -/
theorem liftSteps_iff_of_isGenerated {h : Hierarchy} {m g : ContentType} (hm : h.isGenerated m) :
    Relation.ReflTransGen h.LiftStep m g ↔ g = m := by
  rw [Relation.ReflTransGen.cases_head_iff]
  constructor
  · rintro (rfl | ⟨n, hstep, -⟩)
    · rfl
    · exact absurd hm (by simp [hstep.1])
  · exact fun e => .inl e.symm

/-- What stands for a mixin that is not generated stands for one that it is composed of, if it is
generated itself. -/
theorem liftSteps_iff_of_not_isGenerated {h : Hierarchy} {m g : ContentType}
    (hm : h.isGenerated m = false) (hg : h.isGenerated g) :
    Relation.ReflTransGen h.LiftStep m g ↔
      ∃ n ∈ h.mixinsOf m, Relation.ReflTransGen h.LiftStep n g := by
  rw [Relation.ReflTransGen.cases_head_iff]
  constructor
  · rintro (rfl | ⟨n, hstep, hrest⟩)
    · rw [hm] at hg
      cases hg
    · exact ⟨n, hstep.2, hrest⟩
  · rintro ⟨n, hn, hrest⟩
    exact .inr ⟨n, ⟨hm, hn⟩, hrest⟩

/-- In a sound hierarchy, the loop comes to the end of every mixin. -/
theorem Sound.handles {h : Hierarchy} (hs : h.Sound) {t : ContentType} (ht : t ∈ h.types) :
    ∀ m ∈ h.types, h.Handles t [m] := by
  refine Digraph.Acyclic.induction h.graph_closed hs.keys.of_map hs.acyclic fun m hm ih => ?_
  intro before rest
  rw [List.singleton_append]
  by_cases hinherited : h.inherits t m
  · -- What stands for an inherited mixin is inherited.
    rw [liftFrom_of_inherits hinherited]
    refine ⟨before, rfl, id, fun g => ⟨.inl, ?_⟩⟩
    rintro (hg | ⟨-, hnot, n, hn, hng⟩)
    · exact hg
    · obtain rfl := List.mem_singleton.1 hn
      exact absurd (mem_inheritedBy_of_reaches ((hs.inherits_iff ht hm).1 hinherited)
        (reaches_of_liftStep hng)) hnot
  · have hnot : m ∉ h.inheritedBy t := fun hmem => hinherited ((hs.inherits_iff ht hm).2 hmem)
    cases hgen : h.isGenerated m with
    | true =>
      rw [liftFrom_of_isGenerated hinherited hgen]
      refine ⟨_, rfl, fun hnodup => ?_, fun g => ?_⟩
      · split
        · exact hnodup
        · rename_i hmem
          exact List.concat_eq_append ▸ hnodup.concat hmem
      · have hadded : g ∈ (if m ∈ before then before else before ++ [m]) ↔ g ∈ before ∨ g = m := by
          split
          · rename_i hmem
            exact ⟨.inl, fun hg => hg.elim id fun e => e ▸ hmem⟩
          · simp
        simp only [hadded, List.mem_singleton, exists_eq_left, liftSteps_iff_of_isGenerated hgen]
        refine or_congr_right ⟨?_, fun hg => hg.2.2⟩
        rintro rfl
        exact ⟨hgen, hnot, rfl⟩
    | false =>
      rw [liftFrom_of_not_isGenerated hinherited hgen]
      have hmixins : h.Handles t (h.mixinsOf m).reverse := handles_of_forall fun n hn =>
        ih n (.single (edge_of_mem_mixinsOf (List.mem_reverse.1 hn)))
      obtain ⟨after, hrun, hgrows⟩ := hmixins before rest
      refine ⟨after, hrun, hgrows.nodup, fun g => ?_⟩
      rw [hgrows.mem_iff]
      refine or_congr_right (and_congr_right fun hg => and_congr_right fun _ => ?_)
      simp only [List.mem_singleton, exists_eq_left, List.mem_reverse,
        liftSteps_iff_of_not_isGenerated hgen hg]

/-! ## What is listed -/

/-- A list of the interfaces that stand for the mixins which `t` declares. -/
structure ListsLifted (h : Hierarchy) (t : ContentType) (l : List ContentType) : Prop where
  /-- Nothing is listed twice. -/
  nodup : l.Nodup
  /-- The list is sorted by class name. -/
  sorted : l.Pairwise fun g g' => g.className ≤ g'.className
  /-- The list holds the generated mixins that `t` does not inherit and that stand for a mixin which
  it declares: only mixins that are not generated lie between. -/
  mem_iff : ∀ g, g ∈ l ↔ g.isMixin ∧ h.isGenerated g ∧ h.inherits t g = false ∧
    ∃ d ∈ h.declaredBy t, Relation.ReflTransGen h.LiftStep d g

/-- What stands for a mixin of a type, and is not inherited, stands for one that it declares. -/
theorem lifts_iff_declaredBy {h : Hierarchy} {t g : ContentType} :
    h.Lifts t g ↔ h.isGenerated g ∧ g ∉ h.inheritedBy t ∧
      ∃ d ∈ h.declaredBy t, Relation.ReflTransGen h.LiftStep d g := by
  refine and_congr_right fun _ => and_congr_right fun hnot => ?_
  constructor
  · rintro ⟨d, hd, hdg⟩
    have hdnot : d ∉ h.inheritedBy t := fun hmem =>
      hnot (mem_inheritedBy_of_reaches hmem (reaches_of_liftStep hdg))
    exact ⟨d, mem_declaredBy_iff.2 ⟨hd, hdnot⟩, hdg⟩
  · rintro ⟨d, hd, hdg⟩
    exact ⟨d, (mem_declaredBy_iff.1 hd).1, hdg⟩

/-- In a sound hierarchy, what stands for mixins of a type are mixins that it does not inherit. -/
theorem Sound.lifts_iff {h : Hierarchy} (hs : h.Sound) {t g : ContentType} (ht : t ∈ h.types) :
    h.Lifts t g ↔ g.isMixin ∧ h.isGenerated g ∧ h.inherits t g = false ∧
      ∃ d ∈ h.declaredBy t, Relation.ReflTransGen h.LiftStep d g := by
  have hdeclared : ∀ d ∈ h.declaredBy t, Relation.ReflTransGen h.LiftStep d g →
      g.isMixin ∧ (h.inherits t g = false ↔ g ∉ h.inheritedBy t) := by
    intro d hd hdg
    have hdmixin := (mem_declaredBy_iff.1 hd).1
    have hdtypes := mem_of_mem_mixinsOf hdmixin
    have hg := h.graph_closed.mem_of_reaches hdtypes (reaches_of_liftStep hdg)
    refine ⟨isMixin_of_liftStep hs (hs.isMixin ht hdmixin) hdtypes hdg, ?_⟩
    rw [← Bool.not_eq_true, hs.inherits_iff ht hg]
  rw [lifts_iff_declaredBy]
  constructor
  · rintro ⟨hgen, hnot, d, hd, hdg⟩
    obtain ⟨hmix, hiff⟩ := hdeclared d hd hdg
    exact ⟨hmix, hgen, hiff.2 hnot, d, hd, hdg⟩
  · rintro ⟨-, hgen, hnot, d, hd, hdg⟩
    exact ⟨hgen, (hdeclared d hd hdg).2.1 hnot, d, hd, hdg⟩

/-- Sorted by class name, the lifted mixins are a list of what stands for the declared ones if each
is there once. -/
theorem Sound.listsLifted_sortBy {h : Hierarchy} (hs : h.Sound) {t : ContentType} (ht : t ∈ h.types)
    {l : List ContentType} (hnodup : l.Nodup) (hmem : ∀ g, g ∈ l ↔ h.Lifts t g) :
    h.ListsLifted t (sortBy ContentType.className l) where
  nodup := (sortBy_perm _ l).nodup_iff.2 hnodup
  sorted := sortBy_pairwise _ l
  mem_iff g := by rw [(sortBy_perm _ l).mem_iff, hmem, hs.lifts_iff ht]

/-- The base chain of a type implements nothing that stands for its mixins. -/
theorem Sound.not_lifts_of_implements {h : Hierarchy} (hs : h.Sound) {t c m : ContentType}
    (hc : Relation.TransGen h.HasBase t c) (hm : h.Implements c m) : ¬ h.Lifts t m := by
  obtain ⟨b, hb, hbc⟩ := Relation.TransGen.head'_iff.1 hc
  have hbc : h.graph.Reaches b c :=
    hs.reaches_iff.2 (Relation.ReflTransGen.mono (fun _ _ => .inl) b c hbc)
  have hinherited : m ∈ h.inheritedBy t :=
    mem_inheritedBy_iff.2 ⟨b, (baseOf?_eq_some_iff hs.keys hs.ids).2 hb, hbc.trans hm.reaches⟩
  exact fun hlifts => hlifts.2.1 hinherited

/-- Of an accepted hierarchy, the loop ends from the mixins that a type declares. Sorted by class
name, what it lists is each generated mixin once that stands for a declared one and is not
inherited, and so is `Hierarchy.lifted`, in the same order of class names. All of these are
generated, and no type on the base chain implements one. -/
theorem loop_lists_lifted {mode : Mode} {types : List ContentType} {h : Hierarchy}
    (hok : ofTypes mode types = .ok h) {t : ContentType} (ht : t ∈ h.types) :
    (∃ listed, h.liftFrom t [] (h.declaredBy t).reverse = .some listed ∧
      h.ListsLifted t (sortBy ContentType.className listed) ∧
      (sortBy ContentType.className listed).map ContentType.className =
        (h.lifted t).map ContentType.className) ∧
      h.ListsLifted t (h.lifted t) ∧
      ∀ m ∈ h.lifted t, h.isGenerated m ∧
        ∀ c, Relation.TransGen h.HasBase t c → ¬ h.Implements c m := by
  have hs := sound_of_ofTypes hok
  have hlifted : h.ListsLifted t (h.lifted t) := by
    refine hs.listsLifted_sortBy ht ((Digraph.walk_nodup _ hs.keys.of_map _).filter _) fun g => ?_
    rw [← mem_lifted_iff, lifted, (sortBy_perm _ _).mem_iff]
  have hhandles : h.Handles t (h.declaredBy t).reverse := handles_of_forall fun d hd =>
    hs.handles ht d (mem_of_mem_mixinsOf (mem_declaredBy_iff.1 (List.mem_reverse.1 hd)).1)
  obtain ⟨listed, hrun, hgrows⟩ := hhandles [] []
  rw [List.append_nil, liftFrom_nil] at hrun
  have hmem : ∀ g, g ∈ listed ↔ h.Lifts t g := fun g => by
    simp only [hgrows.mem_iff, lifts_iff_declaredBy, List.mem_reverse, List.not_mem_nil, false_or]
  have hlisted := hs.listsLifted_sortBy ht (hgrows.nodup List.nodup_nil) hmem
  refine ⟨⟨listed, hrun, hlisted, ?_⟩, hlifted, fun m hm => ?_⟩
  · refine map_eq_of_perm_of_pairwise ?_ hlisted.sorted hlifted.sorted
    refine (List.perm_ext_iff_of_nodup hlisted.nodup hlifted.nodup).2 fun g => ?_
    rw [hlisted.mem_iff, hlifted.mem_iff]
  · have hlifts := mem_lifted_iff.1 hm
    exact ⟨hlifts.1, fun c hc himplements => hs.not_lifts_of_implements hc himplements hlifts⟩

/-- A page that is composed of two sides, both of which are composed of the same parts. Neither the
sides nor the type that collects the parts are generated, and the last part is inherited. -/
def sidedTypes : List ContentType :=
  [{ id := 1, aliasName := "seo", className := "Seo", itemType := .content, usage := .mixin },
    { id := 2, aliasName := "meta", className := "Meta", itemType := .content, usage := .mixin },
    { id := 3, aliasName := "tags", className := "Tags", itemType := .content, usage := .mixin },
    { id := 4, aliasName := "parts", className := "Parts", itemType := .content,
      usage := .compositionOnly, mixinAliases := ["seo", "meta", "tags"] },
    { id := 5, aliasName := "left", className := "Left", itemType := .content,
      usage := .compositionOnly, mixinAliases := ["parts"] },
    { id := 6, aliasName := "right", className := "Right", itemType := .content,
      usage := .compositionOnly, mixinAliases := ["parts"] },
    { id := 7, aliasName := "root", className := "Root", itemType := .content,
      mixinAliases := ["tags"] },
    { id := 8, aliasName := "page", className := "Page", itemType := .content, parentId := 7,
      mixinAliases := ["left", "right"] }]

/-- The parts come twice onto the stack, and what stands for them is listed once: the metadata and
then the search data, but not the tags, which the page inherits. -/
theorem parts_listed_once :
    ofTypes .sourceCode sidedTypes = .ok ⟨sidedTypes⟩ ∧ sidedTypes[7] ∈ sidedTypes ∧
      ∃ listed, (Hierarchy.mk sidedTypes).liftFrom sidedTypes[7] []
          ((Hierarchy.mk sidedTypes).declaredBy sidedTypes[7]).reverse = .some listed ∧
        (sortBy ContentType.className listed).map ContentType.className = ["Meta", "Seo"] := by
  have hok : ofTypes .sourceCode sidedTypes = .ok ⟨sidedTypes⟩ :=
    ofTypes_sourceCode_eq_ok (by decide +kernel)
  have ht : sidedTypes[7] ∈ sidedTypes := by decide
  have hlifted : ((Hierarchy.mk sidedTypes).lifted sidedTypes[7]).map ContentType.className =
      ["Meta", "Seo"] := by decide +kernel
  obtain ⟨⟨listed, hrun, -, hnames⟩, -⟩ := loop_lists_lifted hok ht
  exact ⟨hok, ht, listed, hrun, hnames.trans hlifted⟩

end Hierarchy

end ContentModels
