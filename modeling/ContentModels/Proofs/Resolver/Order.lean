import ContentModels.Proofs.Hierarchy.Order
import ContentModels.Proofs.Resolver.Placeholders

/-!
# The order of the declarations

A resolver asks which declarations a symbol has, and which types a placeholder fits, but not in
which order they come. Two resolvers for the same place, with the same declarations of the same
types (`Resolver.Alike`), write every type reference alike (`Alike.draft_eq`).
-/

namespace ContentModels

/-- The types that a placeholder may designate are the same. -/
theorem Hierarchy.Reordered.candidates_perm {h k : Hierarchy} (hhk : h.Reordered k)
    (p : Placeholder) : (h.candidates p).Perm (k.candidates p) := by
  unfold candidates
  split
  · rw [hhk.find?_eq]
  · exact hhk.withAlias_perm p.aliasName

/-- A symbol has the same declarations whatever the order of the types, and whatever the order and
the repetitions in the catalog. -/
theorem SymbolTable.declarationsOf_perm {h k : Hierarchy} (hhk : h.Reordered k)
    {catalog catalog' : List DeclaredType} (hcatalog : ∀ d, d ∈ catalog ↔ d ∈ catalog')
    (modelsNamespace : Namespace) (symbol : String) :
    ((build catalog h modelsNamespace).declarationsOf symbol).Perm
      ((build catalog' k modelsNamespace).declarationsOf symbol) := by
  refine (List.perm_ext_iff_of_nodup ((nodup_eraseDups _).filter _)
    ((nodup_eraseDups _).filter _)).2 fun d => ?_
  simp only [List.mem_filter, List.mem_eraseDups, List.mem_append, List.mem_map, List.mem_flatMap,
    hcatalog, hhk.generatedTypes_perm.mem_iff]

namespace Resolver

/-- Two resolvers write for the same place, beside the same declarations, and know the same types,
in any order. -/
structure Alike (r s : Resolver) : Prop where
  /-- The place is the same. -/
  scope : r.scope = s.scope
  /-- The namespace that models are declared in is the same. -/
  modelsNamespace : r.symbols.modelsNamespace = s.symbols.modelsNamespace
  /-- Each symbol has the same declarations. -/
  declarations : ∀ symbol,
    (r.symbols.declarationsOf symbol).Perm (s.symbols.declarationsOf symbol)
  /-- The types are the same. -/
  hierarchy : r.hierarchy.Reordered s.hierarchy

namespace Alike

variable {r s : Resolver} (hrs : r.Alike s)
include hrs

/-- The same symbols are written short. -/
theorem isAmbiguous_eq (symbol : String) (ns : Namespace) :
    r.isAmbiguous symbol ns = s.isAmbiguous symbol ns := by
  have hvisible : (r.visibleDeclarations symbol).Perm (s.visibleDeclarations symbol) := by
    unfold visibleDeclarations
    rw [hrs.scope]
    exact (hrs.declarations symbol).filter _
  have hnone : r.visibleDeclarations symbol = [] ↔ s.visibleDeclarations symbol = [] := by
    rw [← List.length_eq_zero_iff, hvisible.length_eq, List.length_eq_zero_iff]
  have hshort : r.isAmbiguous symbol ns = false ↔ s.isAmbiguous symbol ns = false := by
    simp only [isAmbiguous_eq_false_iff, hrs.scope, hnone, eq_singleton_iff_of_perm hvisible]
  rw [← Bool.not_inj_iff, Bool.eq_iff_iff, Bool.not_eq_true', Bool.not_eq_true', hshort]

/-- Symbols are written behind the same namespace. -/
theorem qualifier_eq (symbol : String) (ns : Namespace) :
    r.qualifier symbol ns = s.qualifier symbol ns := by
  rw [qualifier, qualifier, hrs.isAmbiguous_eq]

/-- Declared types are written alike. -/
theorem symbolText_eq (d : DeclaredType) : r.symbolText d = s.symbolText d := by
  rw [symbolText, symbolText, hrs.qualifier_eq]

/-- What is declared with the models is written alike. -/
theorem modelSymbol_eq (symbol : String) : r.modelSymbol symbol = s.modelSymbol symbol := by
  rw [modelSymbol, modelSymbol, hrs.modelsNamespace, hrs.symbolText_eq]

/-- Placeholders designate the same models, or come to the same faults. -/
theorem modelOf_eq (p : Placeholder) : r.modelOf p = s.modelOf p := by
  have hperm := hrs.hierarchy.candidates_perm p
  rw [Resolver.modelOf_eq, Resolver.modelOf_eq]
  rcases hr : r.hierarchy.candidates p with _ | ⟨t, _ | ⟨u, rest⟩⟩
  · rw [hr] at hperm
    rw [List.nil_perm.1 hperm]
  · rw [(eq_singleton_iff_of_perm hperm).1 hr]
    simp only [hrs.hierarchy.isGenerated_eq]
  · rcases hs : s.hierarchy.candidates p with _ | ⟨t', _ | ⟨u', rest'⟩⟩
    · rw [hr, hs] at hperm
      exact absurd hperm.length_eq (by simp)
    · rw [(eq_singleton_iff_of_perm hperm).2 hs] at hr
      exact absurd (congrArg List.length hr) (by simp)
    · rfl

end Alike

mutual

/-- Type references are written alike. -/
theorem Alike.draft_eq {r s : Resolver} (hrs : r.Alike s) : ∀ t : TypeRef, r.draft t = s.draft t
  | .named ns outer nested args => by
    have hargs := hrs.drafts_eq args
    unfold draft
    split
    · rfl
    · cases args with
      | nil => rw [hrs.qualifier_eq]
      | cons t ts => simp only [hrs.qualifier_eq, hargs]
  | .model target => by
    rw [draft, draft, hrs.modelOf_eq]
    split
    · rfl
    · rw [hrs.modelSymbol_eq]
  | .array element => by rw [draft, draft, hrs.draft_eq element]

/-- Several type references are written alike. -/
theorem Alike.drafts_eq {r s : Resolver} (hrs : r.Alike s) : ∀ ts : List TypeRef,
    r.drafts ts = s.drafts ts
  | [] => rfl
  | t :: ts => by rw [drafts, drafts, hrs.draft_eq t, hrs.drafts_eq ts]

end

end Resolver

end ContentModels
