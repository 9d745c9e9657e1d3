import ContentModels.Proofs.Resolver.Expansion

/-!
# When placeholders can be written

A placeholder can be written if it designates one generated model (`Hierarchy.DesignatesModel`).
Whether a type reference can be written is a matter of its placeholders alone, and of several that
cannot be written the first from the left decides the fault (`fault_draft`,
`findSome?_placeholderFault?_eq_some_iff`).
-/

namespace ContentModels

namespace Hierarchy

/-! ## What placeholders designate -/

/-- The placeholder designates `t`: the type of its alias and its item type or, where it gives no
item type, the only type of its alias. -/
def Designates (h : Hierarchy) (p : Placeholder) (t : ContentType) : Prop :=
  t ∈ h.types ∧ t.aliasName = p.aliasName ∧
    match p.itemType with
    | some itemType => t.itemType = itemType
    | none => ∀ u ∈ h.types, u.aliasName = p.aliasName → u = t

/-- The placeholder designates a type that a model is generated for. -/
def DesignatesModel (h : Hierarchy) (p : Placeholder) : Prop :=
  ∃ t ∈ h.generatedTypes, h.Designates p t

/-- The placeholder gives no item type, and several types bear its alias. -/
def Confuses (h : Hierarchy) (p : Placeholder) : Prop :=
  p.itemType = none ∧ ∃ t ∈ h.types, ∃ u ∈ h.types,
    t.aliasName = p.aliasName ∧ u.aliasName = p.aliasName ∧ t ≠ u

/-- The placeholder designates no model, for the reason that the fault gives. -/
def PlaceholderFault (h : Hierarchy) (p : Placeholder) (fault : Fault) : Prop :=
  ¬ h.DesignatesModel p ∧
    (h.Confuses p ∧ fault = .ambiguousModel p.text ∨ ¬ h.Confuses p ∧ fault = .unknownModel p.text)

/-- The fault is that of the first placeholder of a list that designates no model. -/
def FirstFault (h : Hierarchy) (placeholders : List Placeholder) (fault : Fault) : Prop :=
  ∃ before p after, placeholders = before ++ p :: after ∧ (∀ q ∈ before, h.DesignatesModel q) ∧
    h.PlaceholderFault p fault

/-- The types among which the resolver looks for the one that a placeholder designates. -/
def candidates (h : Hierarchy) (p : Placeholder) : List ContentType :=
  match p.itemType with
  | some itemType => (h.find? p.aliasName itemType).toList
  | none => h.withAlias p.aliasName

/-- A placeholder fits what it designates. -/
theorem Designates.fits {h : Hierarchy} {p : Placeholder} {t : ContentType}
    (ht : h.Designates p t) : p.fits t := by
  obtain ⟨-, halias, hitem⟩ := ht
  unfold Placeholder.fits
  cases hkind : p.itemType with
  | none => simp [halias]
  | some itemType =>
    rw [hkind] at hitem
    simp [halias, show t.itemType = itemType from hitem]

/-- What a placeholder designates is not one of several. -/
theorem Designates.not_confuses {h : Hierarchy} {p : Placeholder} {t : ContentType}
    (ht : h.Designates p t) : ¬ h.Confuses p := by
  rintro ⟨hnone, u, hu, v, hv, hualias, hvalias, hne⟩
  obtain ⟨-, -, honly⟩ := ht
  rw [hnone] at honly
  exact hne ((honly u hu hualias).trans (honly v hv hvalias).symm)

/-- What a placeholder designates is the only candidate. -/
theorem candidates_eq_singleton_iff {h : Hierarchy} (hkeys : (h.types.map ContentType.key).Nodup)
    {p : Placeholder} {t : ContentType} : h.candidates p = [t] ↔ h.Designates p t := by
  unfold candidates Designates
  cases p.itemType with
  | some itemType =>
    dsimp only
    rw [← find?_eq_some_iff hkeys]
    cases hfind : h.find? p.aliasName itemType <;> simp
  | none => exact withAlias_eq_singleton_iff hkeys

/-- A placeholder designates one type at most. -/
theorem Designates.unique {h : Hierarchy} (hkeys : (h.types.map ContentType.key).Nodup)
    {p : Placeholder} {t u : ContentType} (ht : h.Designates p t) (hu : h.Designates p u) :
    t = u := by
  have hone := (candidates_eq_singleton_iff hkeys).2 ht
  rw [(candidates_eq_singleton_iff hkeys).2 hu] at hone
  exact (List.singleton_inj.1 hone).symm

/-- A placeholder has several candidates exactly if it gives no item type and several types bear its
alias. -/
theorem confuses_iff {h : Hierarchy} (hkeys : (h.types.map ContentType.key).Nodup)
    {p : Placeholder} : h.Confuses p ↔ ∃ t u rest, h.candidates p = t :: u :: rest := by
  unfold Confuses candidates
  cases p.itemType with
  | some itemType => cases hfind : h.find? p.aliasName itemType <;> simp [hfind]
  | none =>
    dsimp only
    constructor
    · rintro ⟨-, t, ht, u, hu, htalias, hualias, hne⟩
      have htmem := mem_withAlias_iff.2 ⟨ht, htalias⟩
      have humem := mem_withAlias_iff.2 ⟨hu, hualias⟩
      rcases hlist : h.withAlias p.aliasName with _ | ⟨v, _ | ⟨w, rest⟩⟩
      · rw [hlist] at htmem
        cases htmem
      · rw [hlist] at htmem humem
        exact absurd ((List.mem_singleton.1 htmem).trans (List.mem_singleton.1 humem).symm) hne
      · exact ⟨v, w, rest, rfl⟩
    · rintro ⟨t, u, rest, hlist⟩
      have hnodup : (h.withAlias p.aliasName).Nodup := hkeys.of_map.filter _
      obtain ⟨ht, htalias⟩ := mem_withAlias_iff.1 (hlist ▸ List.mem_cons_self)
      obtain ⟨hu, hualias⟩ :=
        mem_withAlias_iff.1 (hlist ▸ List.mem_cons_of_mem t List.mem_cons_self)
      rw [hlist] at hnodup
      have hne : t ≠ u := by
        rintro rfl
        exact (List.nodup_cons.1 hnodup).1 List.mem_cons_self
      exact ⟨rfl, t, ht, u, hu, htalias, hualias, hne⟩

end Hierarchy

namespace Resolver

open Hierarchy

/-! ## One placeholder -/

/-- The resolver looks for the designated type among the candidates. -/
theorem modelOf_eq (r : Resolver) (p : Placeholder) :
    r.modelOf p = match r.hierarchy.candidates p with
      | [] => .error (.unknownModel p.text)
      | [t] => if r.hierarchy.isGenerated t then .ok t else .error (.unknownModel p.text)
      | _ => .error (.ambiguousModel p.text) := rfl

/-- The fault that keeps a placeholder from being written. -/
def placeholderFault? (r : Resolver) (p : Placeholder) : Option Fault :=
  match r.modelOf p with
  | .ok _ => none
  | .error fault => some fault

variable {r : Resolver} (hkeys : (r.hierarchy.types.map ContentType.key).Nodup)
include hkeys

/-- A placeholder is written as the generated model that it designates. -/
theorem modelOf_eq_ok_iff {p : Placeholder} {t : ContentType} :
    r.modelOf p = .ok t ↔ r.hierarchy.Designates p t ∧ r.hierarchy.isGenerated t := by
  rw [modelOf_eq, ← candidates_eq_singleton_iff hkeys]
  rcases r.hierarchy.candidates p with _ | ⟨u, _ | ⟨v, rest⟩⟩
  · simp
  · dsimp only
    cases hgen : r.hierarchy.isGenerated u with
    | false =>
      simp only [Bool.false_eq_true, if_false, reduceCtorEq, List.cons.injEq, and_true, false_iff,
        not_and]
      rintro rfl
      simp [hgen]
    | true =>
      simp only [if_true, Except.ok.injEq, List.cons.injEq, and_true]
      constructor
      · rintro rfl
        exact ⟨rfl, hgen⟩
      · exact fun hu => hu.1
  · simp

/-- A placeholder can be written exactly if it designates a model. -/
theorem placeholderFault?_eq_none_iff {p : Placeholder} :
    r.placeholderFault? p = none ↔ r.hierarchy.DesignatesModel p := by
  have hok : r.placeholderFault? p = none ↔ ∃ t, r.modelOf p = .ok t := by
    unfold placeholderFault?
    cases r.modelOf p <;> simp
  rw [hok]
  constructor
  · rintro ⟨t, ht⟩
    obtain ⟨hdesignates, hgen⟩ := (modelOf_eq_ok_iff hkeys).1 ht
    exact ⟨t, List.mem_filter.2 ⟨hdesignates.1, hgen⟩, hdesignates⟩
  · rintro ⟨t, ht, hdesignates⟩
    exact ⟨t, (modelOf_eq_ok_iff hkeys).2 ⟨hdesignates, (List.mem_filter.1 ht).2⟩⟩

/-- The fault that keeps a placeholder from being written tells why it designates no model. -/
theorem placeholderFault?_eq_some_iff {p : Placeholder} {fault : Fault} :
    r.placeholderFault? p = some fault ↔ r.hierarchy.PlaceholderFault p fault := by
  have hconfuses := confuses_iff hkeys (p := p)
  unfold PlaceholderFault
  rw [← placeholderFault?_eq_none_iff hkeys, hconfuses]
  unfold placeholderFault?
  rw [modelOf_eq]
  rcases r.hierarchy.candidates p with _ | ⟨u, _ | ⟨v, rest⟩⟩
  · simp [eq_comm (a := fault)]
  · cases hgen : r.hierarchy.isGenerated u <;> simp [hgen, eq_comm (a := fault)]
  · simp [eq_comm (a := fault)]

/-- Of several placeholders, the first that designates no model decides the fault. -/
theorem findSome?_placeholderFault?_eq_some_iff {placeholders : List Placeholder} {fault : Fault} :
    placeholders.findSome? r.placeholderFault? = some fault ↔
      r.hierarchy.FirstFault placeholders fault := by
  simp only [List.findSome?_eq_some_iff, placeholderFault?_eq_some_iff hkeys,
    placeholderFault?_eq_none_iff hkeys]
  constructor
  · rintro ⟨before, p, after, hsplit, hfault, hbefore⟩
    exact ⟨before, p, after, hsplit, hbefore, hfault⟩
  · rintro ⟨before, p, after, hsplit, hbefore, hfault⟩
    exact ⟨before, p, after, hsplit, hfault, hbefore⟩

/-- Let the first of some placeholders that cannot be written decide the fault of a draft. It is
written in full if each of them designates a model, and otherwise comes to the fault of the first
that does not. -/
theorem written_iff {placeholders : List Placeholder} {d : Draft}
    (hd : d.fault = placeholders.findSome? r.placeholderFault?) :
    ((∃ text, d.toExcept = .ok text) ↔ ∀ p ∈ placeholders, r.hierarchy.DesignatesModel p) ∧
      ∀ fault, d.toExcept = .error fault ↔ r.hierarchy.FirstFault placeholders fault := by
  constructor
  · simp only [Draft.exists_toExcept_iff, hd, List.findSome?_eq_none_iff,
      placeholderFault?_eq_none_iff hkeys]
  · intro fault
    rw [Draft.toExcept_eq_error_iff, hd, findSome?_placeholderFault?_eq_some_iff hkeys]

omit hkeys

/-! ## Type references -/

mutual

/-- The first placeholder of a type reference that cannot be written decides the fault. -/
theorem fault_draft (r : Resolver) : ∀ t : TypeRef,
    (r.draft t).fault = t.placeholders.findSome? r.placeholderFault?
  | .named ns outer nested args => by
    rw [TypeRef.placeholders, ← findSome?_fault_drafts r args]
    unfold draft
    split
    · rename_i keyword hkeyword
      rw [args_eq_nil_of_keyword? hkeyword]
      rfl
    · cases args with
      | nil => rfl
      | cons t ts =>
        simp only [Draft.fault_append, Draft.fault_ofString, Draft.fault_join, Option.none_or,
          Option.or_none]
  | .model target => by
    rw [TypeRef.placeholders, draft, List.findSome?_singleton, placeholderFault?]
    cases r.modelOf target <;> rfl
  | .array element => by
    rw [draft, Draft.fault_append, Draft.fault_ofString, Option.or_none, fault_draft r element,
      TypeRef.placeholders]

/-- The first placeholder of several type references that cannot be written decides the fault. -/
theorem findSome?_fault_drafts (r : Resolver) : ∀ ts : List TypeRef,
    (r.drafts ts).findSome? Draft.fault =
      (TypeRef.placeholdersOfList ts).findSome? r.placeholderFault?
  | [] => rfl
  | t :: ts => by
    rw [drafts, Draft.findSome?_fault_cons, fault_draft r t, findSome?_fault_drafts r ts,
      TypeRef.placeholdersOfList, List.findSome?_append]

end

end Resolver

end ContentModels
