import ContentModels.Proofs.Hierarchy.Selection
import ContentModels.Resolver

/-!
# When a symbol can be written short

The resolver looks for the declarations of a symbol in a table that holds each once. Counted without
the table (`Hierarchy.declarations`), they are as many: a catalog may list a type often, and it is
declared once; types with the same class name are declared each, and so are mixins with the same
name of their interfaces (`declarationsOf_build_perm`). So a symbol can be written short in a
namespace exactly if that can be seen and no other declaration is in the way
(`isAmbiguous_build_iff`).
-/

namespace ContentModels

/-! ## Declarations -/

/-- The declarations of a symbol, without a table. The catalog makes one in each namespace in which
it lists the symbol. In the namespace of the models, each generated type makes one if the symbol is
the name of its class, and each generated mixin if it is the name of its interface. -/
def Hierarchy.declarations (h : Hierarchy) (catalog : List DeclaredType)
    (modelsNamespace : Namespace) (symbol : String) : List Declaration :=
  (((catalog.filter fun d => d.name = symbol).map DeclaredType.ns).eraseDups.map
      fun ns => ⟨symbol, ns, .catalog⟩) ++
    (((h.generatedTypes.filter fun t => t.className = symbol).map
        fun t => ⟨symbol, modelsNamespace, .model t.id⟩) ++
      (h.generatedTypes.filter fun t => t.isMixin && t.interfaceName = symbol).map
        fun t => ⟨symbol, modelsNamespace, .mixinInterface t.id⟩)

namespace SymbolTable

/-- The model of a type declares its class, and its interface if it is a mixin. -/
theorem mem_ofModel_iff {modelsNamespace : Namespace} {t : ContentType} {d : Declaration} :
    d ∈ ofModel modelsNamespace t ↔
      d = ⟨t.className, modelsNamespace, .model t.id⟩ ∨
        t.isMixin ∧ d = ⟨t.interfaceName, modelsNamespace, .mixinInterface t.id⟩ := by
  unfold ofModel
  cases t.isMixin <;> simp

/-- The table holds the declarations that the catalog and the generated types make. -/
theorem mem_declarationsOf_build_iff {catalog : List DeclaredType} {h : Hierarchy}
    {modelsNamespace : Namespace} {symbol : String} {d : Declaration} :
    d ∈ (build catalog h modelsNamespace).declarationsOf symbol ↔
      d ∈ h.declarations catalog modelsNamespace symbol := by
  simp only [declarationsOf, build, Hierarchy.declarations, List.mem_filter, List.mem_eraseDups,
    List.mem_append, List.mem_map, List.mem_flatMap, mem_ofModel_iff, decide_eq_true_eq,
    Bool.and_eq_true]
  constructor
  · rintro ⟨⟨e, he, rfl⟩ | ⟨t, ht, rfl | ⟨hmix, rfl⟩⟩, rfl⟩
    · exact .inl ⟨e.ns, ⟨e, ⟨he, rfl⟩, rfl⟩, rfl⟩
    · exact .inr (.inl ⟨t, ⟨ht, rfl⟩, rfl⟩)
    · exact .inr (.inr ⟨t, ⟨ht, hmix, rfl⟩, rfl⟩)
  · rintro (⟨_, ⟨e, ⟨he, rfl⟩, rfl⟩, rfl⟩ | ⟨t, ⟨ht, rfl⟩, rfl⟩ | ⟨t, ⟨ht, hmix, rfl⟩, rfl⟩)
    · exact ⟨.inl ⟨e, he, rfl⟩, rfl⟩
    · exact ⟨.inr ⟨t, ht, .inl rfl⟩, rfl⟩
    · exact ⟨.inr ⟨t, ht, .inr ⟨hmix, rfl⟩⟩, rfl⟩

/-- No declaration is counted twice, since identities tell the types apart. -/
theorem nodup_declarations {h : Hierarchy} (hids : (h.types.map ContentType.id).Nodup)
    (catalog : List DeclaredType) (modelsNamespace : Namespace) (symbol : String) :
    (h.declarations catalog modelsNamespace symbol).Nodup := by
  have hmodels : ∀ (p : ContentType → Bool) (f : Int → Declaration), f.Injective →
      ((h.generatedTypes.filter p).map fun t => f t.id).Nodup := by
    intro p f hf
    have hsub : (h.generatedTypes.filter p).Sublist h.types :=
      List.filter_sublist.trans List.filter_sublist
    have hnodup := ((hsub.map ContentType.id).nodup hids).map hf
    rwa [List.map_map] at hnodup
  refine List.nodup_append.2 ⟨(nodup_eraseDups _).map fun _ _ he => (Declaration.mk.inj he).2.1,
    List.nodup_append.2 ⟨hmodels _ (fun id => ⟨symbol, modelsNamespace, .model id⟩) ?_,
      hmodels _ (fun id => ⟨symbol, modelsNamespace, .mixinInterface id⟩) ?_, ?_⟩, ?_⟩
  · exact fun _ _ he => Origin.model.inj (Declaration.mk.inj he).2.2
  · exact fun _ _ he => Origin.mixinInterface.inj (Declaration.mk.inj he).2.2
  · -- Classes and interfaces differ in their origin.
    rintro d hd e he rfl
    obtain ⟨t, -, rfl⟩ := List.mem_map.1 hd
    obtain ⟨u, -, heq⟩ := List.mem_map.1 he
    cases (Declaration.mk.inj heq).2.2
  · -- So do the types of the catalog.
    rintro d hd e he rfl
    obtain ⟨n, -, rfl⟩ := List.mem_map.1 hd
    rcases List.mem_append.1 he with he | he
    · obtain ⟨t, -, heq⟩ := List.mem_map.1 he
      cases (Declaration.mk.inj heq).2.2
    · obtain ⟨t, -, heq⟩ := List.mem_map.1 he
      cases (Declaration.mk.inj heq).2.2

/-- The table holds each declaration once. -/
theorem declarationsOf_build_perm {h : Hierarchy} (hids : (h.types.map ContentType.id).Nodup)
    (catalog : List DeclaredType) (modelsNamespace : Namespace) (symbol : String) :
    ((build catalog h modelsNamespace).declarationsOf symbol).Perm
      (h.declarations catalog modelsNamespace symbol) := by
  have hnodup : ((build catalog h modelsNamespace).declarationsOf symbol).Nodup :=
    (nodup_eraseDups _).filter _
  exact (List.perm_ext_iff_of_nodup hnodup
    (nodup_declarations hids catalog modelsNamespace symbol)).2
      fun _ => mem_declarationsOf_build_iff

/-! ## Names that have been met -/

/-- The names that are met when the table is built. -/
def names (table : SymbolTable) : List Namespace := table.entries.map fun d => ⟨d.symbol⟩

/-- The declarations of a short name as they are found by way of a pool: a name that the pool has
not met has none. -/
def lookUp (table : SymbolTable) (pool : NamePool) (symbol : String) : List Declaration :=
  match pool.find? symbol with
  | none => []
  | some name => table.declarationsOf name.text

/-- The declarations are found by way of any pool that has met the names of the table. -/
theorem lookUp_eq {table : SymbolTable} {pool : NamePool}
    (hmet : ∀ name ∈ table.names, name ∈ pool.names) (symbol : String) :
    table.lookUp pool symbol = table.declarationsOf symbol := by
  unfold lookUp NamePool.find?
  cases hfind : pool.names.find? fun name => name.text = symbol with
  | none =>
    rw [List.find?_eq_none] at hfind
    refine (List.filter_eq_nil_iff.2 fun d hd hsymbol => ?_).symm
    have hname := hmet ⟨d.symbol⟩ (List.mem_map_of_mem hd)
    exact hfind _ hname hsymbol
  | some name =>
    have htext := List.find?_some hfind
    rw [decide_eq_true_eq] at htext
    dsimp only
    rw [htext]

end SymbolTable

/-! ## Ambiguity -/

/-- The declarations of a namespace can be seen from a place: it is the place itself, or one that is
imported there, or the global one. -/
def Scope.Visible (scope : Scope) (ns : Namespace) : Prop :=
  ns = scope.target ∨ ns ∈ scope.imports ∨ ns = .global

instance (scope : Scope) (ns : Namespace) : Decidable (scope.Visible ns) :=
  inferInstanceAs (Decidable (_ ∨ _ ∨ _))

/-- The resolver sees the visible namespaces. -/
theorem Scope.sees_iff {scope : Scope} {ns : Namespace} : scope.sees ns ↔ scope.Visible ns := by
  simp [Scope.sees, Scope.Visible, or_assoc]

namespace Resolver

/-- A symbol can be written short if its namespace can be seen and holds its only visible
declaration, or if there is none. -/
theorem isAmbiguous_eq_false_iff {r : Resolver} {symbol : String} {ns : Namespace} :
    r.isAmbiguous symbol ns = false ↔
      r.scope.sees ns ∧ (r.visibleDeclarations symbol = [] ∨
        ∃ d, r.visibleDeclarations symbol = [d] ∧ d.ns = ns) := by
  unfold isAmbiguous
  cases r.scope.sees ns with
  | false => simp
  | true => rcases r.visibleDeclarations symbol with _ | ⟨d, _ | ⟨e, rest⟩⟩ <;> simp

/-- A symbol can be written short in a namespace exactly if that can be seen and, of the
declarations of the symbol, either none can be seen or one, which is in that namespace. The table
finds the declarations whatever other names have been met, and those of models are made by the types
that are not ignored and, if they are only there for composition, referred to. -/
theorem isAmbiguous_build_iff {mode : Mode} {types : List ContentType} {h : Hierarchy}
    (hok : Hierarchy.ofTypes mode types = .ok h) (catalog : List DeclaredType)
    (modelsNamespace : Namespace) (scope : Scope) (symbol : String) (ns : Namespace)
    (earlier later : List Namespace) :
    let r : Resolver := ⟨.build catalog h modelsNamespace, h, scope⟩
    let visible := (h.declarations catalog modelsNamespace symbol).filter
      fun d => scope.Visible d.ns
    (r.isAmbiguous symbol ns = false ↔
        scope.Visible ns ∧ (visible = [] ∨ ∃ d, visible = [d] ∧ d.ns = ns)) ∧
      r.symbols.lookUp ⟨later ++ (r.symbols.names ++ earlier)⟩ symbol =
        r.symbols.declarationsOf symbol ∧
      ∀ t, t ∈ h.generatedTypes ↔
        t ∈ h.types ∧ t.ignored = false ∧ (t.isCompositionOnly → h.isReferenced t) := by
  intro r visible
  have hids := (Hierarchy.sound_of_ofTypes hok).ids
  have hperm : (r.visibleDeclarations symbol).Perm visible := by
    have hsees : r.visibleDeclarations symbol =
        (r.symbols.declarationsOf symbol).filter fun d => scope.Visible d.ns :=
      List.filter_congr fun d _ => by rw [Bool.eq_iff_iff, Scope.sees_iff, decide_eq_true_eq]
    rw [hsees]
    exact (SymbolTable.declarationsOf_build_perm hids catalog modelsNamespace symbol).filter _
  -- None or one are the same in any order.
  have hnil : r.visibleDeclarations symbol = [] ↔ visible = [] :=
    ⟨fun hv => (hv ▸ hperm).nil_eq.symm, fun hv => (hv ▸ hperm).eq_nil⟩
  have hone : ∀ d, r.visibleDeclarations symbol = [d] ↔ visible = [d] := fun d =>
    ⟨fun hv => (hv ▸ hperm).singleton_eq.symm, fun hv => (hv ▸ hperm).eq_singleton⟩
  refine ⟨?_, SymbolTable.lookUp_eq (fun name hname => ?_) symbol,
    fun t => Hierarchy.mem_generatedTypes_iff⟩
  · simp only [isAmbiguous_eq_false_iff, Scope.sees_iff, hnil, hone]
    exact Iff.rfl
  · exact List.mem_append_right later (List.mem_append_left earlier hname)

/-- A mixin, and a type whose class has the name of the mixin's interface. -/
def tagTypes : List ContentType :=
  [{ id := 1, aliasName := "tag", className := "Tag", itemType := .content, usage := .mixin },
    { id := 2, aliasName := "iTag", className := "ITag", itemType := .content }]

/-- A catalog that lists the encoding twice. -/
def encodings : List DeclaredType := [⟨⟨"System.Text"⟩, "Encoding"⟩, ⟨⟨"System.Text"⟩, "Encoding"⟩]

/-- The resolver for the tags, in their namespace, with the encodings imported. -/
def tagResolver : Resolver :=
  ⟨.build encodings ⟨tagTypes⟩ ⟨"Site"⟩, ⟨tagTypes⟩, ⟨⟨"Site"⟩, [⟨"System.Text"⟩]⟩⟩

/-- The encoding can be written short, though the catalog lists it twice. The class and the
interface of one name cannot. -/
theorem tag_isAmbiguous :
    Hierarchy.ofTypes .sourceCode tagTypes = .ok ⟨tagTypes⟩ ∧
      tagResolver.isAmbiguous "Encoding" ⟨"System.Text"⟩ = false ∧
      tagResolver.isAmbiguous "ITag" ⟨"Site"⟩ = true := by
  have hok : Hierarchy.ofTypes .sourceCode tagTypes = .ok ⟨tagTypes⟩ :=
    Hierarchy.ofTypes_sourceCode_eq_ok (by decide +kernel)
  obtain ⟨hencoding, -⟩ := isAmbiguous_build_iff hok encodings ⟨"Site"⟩
    ⟨⟨"Site"⟩, [⟨"System.Text"⟩]⟩ "Encoding" ⟨"System.Text"⟩ [] []
  obtain ⟨htag, -⟩ := isAmbiguous_build_iff hok encodings ⟨"Site"⟩
    ⟨⟨"Site"⟩, [⟨"System.Text"⟩]⟩ "ITag" ⟨"Site"⟩ [] []
  have hone : ((Hierarchy.mk tagTypes).declarations encodings ⟨"Site"⟩ "Encoding").filter (fun d =>
      (Scope.mk ⟨"Site"⟩ [⟨"System.Text"⟩]).Visible d.ns) =
        [⟨"Encoding", ⟨"System.Text"⟩, .catalog⟩] := by decide +kernel
  refine ⟨hok, hencoding.2 ⟨by decide, .inr ⟨_, hone, rfl⟩⟩, ?_⟩
  rw [← Bool.not_eq_false]
  intro hshort
  have hcount : (((Hierarchy.mk tagTypes).declarations encodings ⟨"Site"⟩ "ITag").filter fun d =>
      (Scope.mk ⟨"Site"⟩ [⟨"System.Text"⟩]).Visible d.ns).length = 2 := by decide +kernel
  rcases (htag.1 hshort).2 with hnone | ⟨d, hone, -⟩
  · rw [hnone] at hcount
    cases hcount
  · rw [hone] at hcount
    cases hcount

end Resolver

end ContentModels
