import ContentModels.Proofs.Draft
import ContentModels.Proofs.Resolver.Ambiguity
import ContentModels.Proofs.Resolver.Names

/-!
# What a resolved reference stands for

The full expansion of a type reference (`Resolver.expand`) spells every declared type by its dotted
full name, and every placeholder by that of the model it designates. A resolver writes shorter names
where it can. Nothing is lost by that: references that are resolved to one text have the same full
expansion (`resolve_determines_expansion`).

The proof goes by what a reader makes of the text. A resolved reference is the text of a spelling
whose names the resolver chooses, and of no other (`Spelling.text_injective`). Each name that it
writes, be it a keyword, a name from `global::` on, or a short one, stands for one full name
(`Denotes.unique`): a short name is written only where a single visible declaration has it.
-/

namespace ContentModels

/-- How names are written: those of declared types, and those of the models of content types. -/
structure Naming where
  /-- The name of a declared type, given with its arguments. -/
  declared : Namespace → String → List String → List TypeRef → String
  /-- The name of the model of a content type. -/
  model : ContentType → String

namespace Resolver

/-! ## Spellings of references -/

mutual

/-- The spelling of a type reference, if all its placeholders designate models. -/
def spell (r : Resolver) (naming : Naming) : TypeRef → Option Spelling
  | .named ns outer nested args =>
    (r.spells naming args).map (.name (naming.declared ns outer nested args))
  | .model target =>
    match r.modelOf target with
    | .ok t => some (.name (naming.model t) [])
    | .error _ => none
  | .array element => (r.spell naming element).map .array

/-- The spellings of several type references. -/
def spells (r : Resolver) (naming : Naming) : List TypeRef → Option (List Spelling)
  | [] => some []
  | t :: ts => (r.spell naming t).bind fun e => (r.spells naming ts).map (e :: ·)

end

/-- Names in full: those of the namespace and of all types around, with dots between them. -/
def fullNaming (r : Resolver) : Naming where
  declared ns outer nested _ := ns.lead ++ TypeRef.codePath outer nested
  model t := r.symbols.modelsNamespace.lead ++ t.className

/-- Names as the resolver writes them. -/
def codeNaming (r : Resolver) : Naming where
  declared ns outer nested args :=
    match (TypeRef.named ns outer nested args).keyword? with
    | some keyword => keyword
    | none => r.qualifier outer ns ++ TypeRef.codePath outer nested
  model t := r.modelSymbol t.className

/-- The full expansion of a type reference. -/
def expand (r : Resolver) (t : TypeRef) : Option Spelling := r.spell r.fullNaming t

/-- Keywords have no arguments. -/
theorem args_eq_nil_of_keyword? {ns : Namespace} {outer keyword : String} {nested : List String}
    {args : List TypeRef} (h : (TypeRef.named ns outer nested args).keyword? = some keyword) :
    args = [] := by
  unfold TypeRef.keyword? at h
  split at h
  · rename_i heq
    exact (TypeRef.named.inj heq).2.2.2
  · cases h

/-- The draft of a declared type is written in full only if those of its arguments are. -/
theorem fault_drafts_of_draft_named {r : Resolver} {ns : Namespace} {outer : String}
    {nested : List String} {args : List TypeRef}
    (h : (r.draft (.named ns outer nested args)).fault = none) :
    ∀ d ∈ r.drafts args, d.fault = none := by
  unfold draft at h
  split at h
  · rename_i keyword hkeyword
    rw [args_eq_nil_of_keyword? hkeyword, drafts]
    simp
  · cases args with
    | nil => simp [drafts]
    | cons t ts =>
      obtain ⟨-, hlist⟩ := Draft.fault_append_eq_none_iff.1 h
      obtain ⟨hopened, -⟩ := Draft.fault_append_eq_none_iff.1 hlist
      obtain ⟨-, hjoin⟩ := Draft.fault_append_eq_none_iff.1 hopened
      exact Draft.fault_join_eq_none_iff.1 hjoin

/-- The draft of a declared type is the text of its name with the arguments that are written. -/
theorem draft_named {r : Resolver} {ns : Namespace} {outer : String} {nested : List String}
    {args : List TypeRef} {es : List Spelling}
    (hargs : r.drafts args = (Spelling.texts es).map Draft.ofString) :
    r.draft (.named ns outer nested args) =
      Draft.ofString (Spelling.name (r.codeNaming.declared ns outer nested args) es).text := by
  have hname : r.codeNaming.declared ns outer nested args =
      match (TypeRef.named ns outer nested args).keyword? with
      | some keyword => keyword
      | none => r.qualifier outer ns ++ TypeRef.codePath outer nested := rfl
  unfold draft
  rw [hname, Spelling.text]
  cases args with
  | nil =>
    obtain rfl : es = [] := by
      cases es with
      | nil => rfl
      | cons e es => simp [drafts, Spelling.texts] at hargs
    cases (TypeRef.named ns outer nested []).keyword? with
    | some keyword => simp [Spelling.texts, TypeRef.argumentList]
    | none => simp [Spelling.texts, TypeRef.argumentList, Draft.ofString_append]
  | cons t ts =>
    have hkeyword : (TypeRef.named ns outer nested (t :: ts)).keyword? = none := by
      rw [Option.eq_none_iff_forall_ne_some]
      intro keyword hkeyword
      cases args_eq_nil_of_keyword? hkeyword
    cases es with
    | nil => simp [drafts, Spelling.texts] at hargs
    | cons e es =>
      have hlist : TypeRef.argumentList (Spelling.texts (e :: es)) =
          "<" ++ ", ".intercalate (Spelling.texts (e :: es)) ++ ">" := rfl
      rw [hkeyword, hlist]
      show Draft.ofString _ ++ (Draft.ofString "<" ++ Draft.join ", " (r.drafts (t :: ts)) ++
        Draft.ofString ">") = _
      rw [hargs, Draft.join_map_ofString, Draft.ofString_append, Draft.ofString_append,
        Draft.ofString_append]

mutual

/-- A type reference that can be written is written as the text of its spelling. -/
theorem exists_spell_of_draft (r : Resolver) : ∀ t : TypeRef, (r.draft t).fault = none →
    ∃ e, r.spell r.codeNaming t = some e ∧ r.draft t = Draft.ofString e.text
  | .named ns outer nested args, h => by
    obtain ⟨es, hes, hargs⟩ := exists_spells_of_drafts r args (fault_drafts_of_draft_named h)
    refine ⟨.name (r.codeNaming.declared ns outer nested args) es, ?_, draft_named hargs⟩
    rw [spell, hes]
    rfl
  | .model target, h => by
    rw [draft] at h ⊢
    rw [spell]
    cases hmodel : r.modelOf target with
    | error fault =>
      rw [hmodel] at h
      cases h
    | ok t =>
      refine ⟨.name (r.modelSymbol t.className) [], rfl, ?_⟩
      simp [Spelling.text, Spelling.texts, TypeRef.argumentList]
  | .array element, h => by
    rw [draft] at h ⊢
    obtain ⟨e, he, htext⟩ :=
      exists_spell_of_draft r element (Draft.fault_append_eq_none_iff.1 h).1
    refine ⟨.array e, ?_, ?_⟩
    · rw [spell, he]
      rfl
    · rw [htext, Draft.ofString_append, Spelling.text]

/-- Type references that can be written are written as the texts of their spellings. -/
theorem exists_spells_of_drafts (r : Resolver) : ∀ ts : List TypeRef,
    (∀ d ∈ r.drafts ts, d.fault = none) →
    ∃ es, r.spells r.codeNaming ts = some es ∧
      r.drafts ts = (Spelling.texts es).map Draft.ofString
  | [], _ => ⟨[], rfl, rfl⟩
  | t :: ts, h => by
    rw [drafts, List.forall_mem_cons] at h
    obtain ⟨e, he, htext⟩ := exists_spell_of_draft r t h.1
    obtain ⟨es, hes, htexts⟩ := exists_spells_of_drafts r ts h.2
    refine ⟨e :: es, ?_, ?_⟩
    · rw [spells, he, hes]
      rfl
    · rw [drafts, htext, htexts]
      rfl

end

/-- What a type reference is resolved to is the text of its spelling. -/
theorem exists_spell_of_resolve {r : Resolver} {t : TypeRef} {s : String}
    (h : r.resolve t = .ok s) : ∃ e, r.spell r.codeNaming t = some e ∧ s = e.text := by
  have hdraft : r.draft t = Draft.ofString s := Draft.toExcept_eq_ok_iff.1 h
  have hfault : (r.draft t).fault = none := by rw [hdraft]; rfl
  obtain ⟨e, he, htext⟩ := r.exists_spell_of_draft t hfault
  rw [hdraft] at htext
  exact ⟨e, he, congrArg Draft.text htext⟩

/-! ## What a name stands for -/

/-- The name that stands in code means the full name, to whoever sees what the resolver sees. -/
inductive Denotes (r : Resolver) : String → String → Prop
  /-- A keyword means the type that has it. -/
  | keyword {name keyword : String} : (name, keyword) ∈ TypeRef.keywords →
    Denotes r keyword (TypeRef.systemNamespace.lead ++ name)
  /-- Behind the root stands the full name. -/
  | rooted {full : String} : IsDottedText full → Denotes r ("global::" ++ full) full
  /-- A short name means the only visible declaration of its first name, or what is nested there. -/
  | short {outer : String} {nested : List String} {d : Declaration} : IsPlainName outer →
    (∀ s ∈ nested, IsIdentifier s) → r.visibleDeclarations outer = [d] →
    Denotes r (TypeRef.codePath outer nested) (d.ns.lead ++ TypeRef.codePath outer nested)

/-- A keyword is the path of itself. -/
theorem codePath_singleton (name : String) : TypeRef.codePath name [] = name :=
  String.intercalate_singleton

/-- No keyword is written as a path that starts with a plain name. -/
theorem keyword_ne_codePath {name keyword outer : String} {nested : List String}
    (hkeyword : (name, keyword) ∈ TypeRef.keywords) (houter : IsPlainName outer) :
    keyword ≠ TypeRef.codePath outer nested := by
  intro h
  rw [← codePath_singleton keyword] at h
  have hsame := codePath_inj_outer (isIdentifier_of_mem_keywords hkeyword) houter.1 h
  exact houter.2 (hsame ▸ List.mem_map_of_mem hkeyword)

/-- A name is dotted, or rooted. -/
theorem Denotes.isDottedText_or_eq {r : Resolver} {written full : String}
    (h : r.Denotes written full) :
    IsDottedText written ∨ written = "global::" ++ full ∧ IsDottedText full := by
  cases h with
  | keyword hkeyword => exact .inl (isIdentifier_of_mem_keywords hkeyword).isDottedText
  | rooted hfull => exact .inr ⟨rfl, hfull⟩
  | short houter hnested _ => exact .inl (isDottedText_codePath houter.1 hnested)

/-- A name means one full name only. -/
theorem Denotes.unique {r : Resolver} {written written' full full' : String}
    (h : r.Denotes written full) (h' : r.Denotes written' full') (hwritten : written = written') :
    full = full' := by
  cases h with
  | keyword hkeyword =>
    -- A keyword holds no colon, and no plain name is one.
    have hdotted := (isIdentifier_of_mem_keywords hkeyword).isDottedText
    cases h' with
    | keyword hkeyword' =>
      have hname := (keywords_sound _ hkeyword).2 _ hkeyword' hwritten
      exact congrArg (TypeRef.systemNamespace.lead ++ ·) hname
    | rooted _ => exact absurd hwritten (hdotted.ne_global _)
    | short houter _ _ => exact absurd hwritten (keyword_ne_codePath hkeyword houter)
  | rooted hfull =>
    rcases h'.isDottedText_or_eq with hdotted | ⟨rfl, -⟩
    · exact absurd hwritten.symm (hdotted.ne_global _)
    · exact String.append_right_inj _ |>.1 hwritten
  | short houter hnested hvisible =>
    -- Short names that are written alike have the same first name, whose declaration is meant.
    have hdotted := isDottedText_codePath houter.1 hnested
    cases h' with
    | keyword hkeyword => exact absurd hwritten.symm (keyword_ne_codePath hkeyword houter)
    | rooted _ => exact absurd hwritten (hdotted.ne_global _)
    | short houter' _ hvisible' =>
      obtain rfl := codePath_inj_outer houter.1 houter'.1 hwritten
      rw [hvisible] at hvisible'
      rw [hwritten, (List.cons.inj hvisible').1]

mutual

/-- The first spelling means the second, name by name. -/
def Reads (r : Resolver) : Spelling → Spelling → Prop
  | .name written args, .name full args' => r.Denotes written full ∧ r.ReadsAll args args'
  | .array element, .array element' => r.Reads element element'
  | _, _ => False

/-- The first spellings mean the second ones. -/
def ReadsAll (r : Resolver) : List Spelling → List Spelling → Prop
  | [], [] => True
  | e :: es, f :: fs => r.Reads e f ∧ r.ReadsAll es fs
  | _, _ => False

end

mutual

/-- A spelling means one other only. -/
theorem Reads.unique {r : Resolver} : ∀ {e f f' : Spelling}, r.Reads e f → r.Reads e f' → f = f'
  | .name _ _, .name _ _, .name _ _, h, h' => by
    rw [Denotes.unique h.1 h'.1 rfl, ReadsAll.unique h.2 h'.2]
  | .array _, .array _, .array _, h, h' => congrArg Spelling.array (Reads.unique h h')

/-- Spellings mean one list of others only. -/
theorem ReadsAll.unique {r : Resolver} : ∀ {es fs fs' : List Spelling},
    r.ReadsAll es fs → r.ReadsAll es fs' → fs = fs'
  | [], [], [], _, _ => rfl
  | _ :: _, _ :: _, _ :: _, h, h' => by rw [Reads.unique h.1 h'.1, ReadsAll.unique h.2 h'.2]

end

/-- What a name that means something is made of tells it from what stands around it. -/
theorem Denotes.undelimited {r : Resolver} {written full : String} (h : r.Denotes written full) :
    Undelimited written := by
  rcases h.isDottedText_or_eq with hdotted | ⟨rfl, hfull⟩
  · exact hdotted.undelimited
  · intro c hc
    rw [String.toList_append] at hc
    have hroot : Undelimited "global::" := by simp [Undelimited, isDelimiter]
    rcases List.mem_append.1 hc with hc | hc
    · exact hroot c hc
    · exact hfull.undelimited c hc

mutual

/-- A spelling that means something can be read. -/
theorem Reads.readable {r : Resolver} : ∀ {e f : Spelling}, r.Reads e f → e.Readable
  | .name _ _, .name _ _, h => ⟨h.1.undelimited, ReadsAll.readable h.2⟩
  | .array e, .array f, h => Reads.readable (e := e) (f := f) h

/-- Spellings that mean something can be read. -/
theorem ReadsAll.readable {r : Resolver} : ∀ {es fs : List Spelling},
    r.ReadsAll es fs → Spelling.ReadableAll es
  | [], [], _ => trivial
  | _ :: _, _ :: _, h => ⟨Reads.readable h.1, ReadsAll.readable h.2⟩

end

/-! ## What the resolver writes -/

/-- A symbol of a namespace is declared. -/
def Declares (r : Resolver) (symbol : String) (ns : Namespace) : Prop :=
  ∃ d ∈ r.symbols.declarationsOf symbol, d.ns = ns

mutual

/-- All declared types in the reference have plain names in dotted namespaces, those nested in them
identifiers, and all of them that have no keyword are declared there. -/
def Knows (r : Resolver) : TypeRef → Prop
  | .named ns outer nested args =>
    (ns.IsDotted ∧ IsPlainName outer ∧ ∀ s ∈ nested, IsIdentifier s) ∧
      ((TypeRef.named ns outer nested args).keyword? = none → r.Declares outer ns) ∧
      r.KnowsAll args
  | .model _ => True
  | .array element => r.Knows element

/-- All declared types in the references are known. -/
def KnowsAll (r : Resolver) : List TypeRef → Prop
  | [] => True
  | t :: ts => r.Knows t ∧ r.KnowsAll ts

end

/-- A declared symbol that need not be qualified has a single visible declaration, in its own
namespace. -/
theorem exists_visible_of_not_ambiguous {r : Resolver} {symbol : String} {ns : Namespace}
    (hdeclared : r.Declares symbol ns) (h : r.isAmbiguous symbol ns = false) :
    ∃ d, r.visibleDeclarations symbol = [d] ∧ d.ns = ns := by
  obtain ⟨hsees, hnone | hone⟩ := isAmbiguous_eq_false_iff.1 h
  · -- The declaration can be seen, so the visible ones are not none.
    obtain ⟨d, hd, rfl⟩ := hdeclared
    have hvisible : d ∈ r.visibleDeclarations symbol := List.mem_filter.2 ⟨hd, hsees⟩
    rw [hnone] at hvisible
    cases hvisible
  · exact hone

/-- A declared symbol need not be qualified in one namespace at most. -/
theorem eq_of_not_ambiguous {r : Resolver} {symbol : String} {ns ns' : Namespace}
    (hdeclared : r.Declares symbol ns) (hdeclared' : r.Declares symbol ns')
    (h : r.isAmbiguous symbol ns = false) (h' : r.isAmbiguous symbol ns' = false) : ns = ns' := by
  obtain ⟨d, hvisible, rfl⟩ := exists_visible_of_not_ambiguous hdeclared h
  obtain ⟨d', hvisible', rfl⟩ := exists_visible_of_not_ambiguous hdeclared' h'
  rw [hvisible] at hvisible'
  rw [(List.cons.inj hvisible').1]

/-- A name with the qualifier that it needs means the full name. -/
theorem denotes_qualified {r : Resolver} {ns : Namespace} {outer : String} {nested : List String}
    (hns : ns.IsDotted) (houter : IsPlainName outer) (hnested : ∀ s ∈ nested, IsIdentifier s)
    (hdeclared : r.Declares outer ns) :
    r.Denotes (r.qualifier outer ns ++ TypeRef.codePath outer nested)
      (ns.lead ++ TypeRef.codePath outer nested) := by
  unfold qualifier
  -- Qualified, it is the full name behind the root.
  cases hambiguous : r.isAmbiguous outer ns with
  | true =>
    rw [if_pos rfl, String.append_assoc]
    exact .rooted (hns.isDottedText_lead.append (isDottedText_codePath houter.1 hnested))
  | false =>
    obtain ⟨d, hvisible, rfl⟩ := exists_visible_of_not_ambiguous hdeclared hambiguous
    rw [if_neg Bool.false_ne_true, String.empty_append]
    exact .short houter hnested hvisible

/-- A keyword means the type that it is written for. -/
theorem denotes_keyword {r : Resolver} {ns : Namespace} {outer keyword : String}
    {nested : List String} {args : List TypeRef}
    (h : (TypeRef.named ns outer nested args).keyword? = some keyword) :
    r.Denotes keyword (ns.lead ++ TypeRef.codePath outer nested) := by
  unfold TypeRef.keyword? at h
  split at h
  · rename_i heq
    obtain ⟨rfl, rfl, rfl, -⟩ := TypeRef.named.inj heq
    split at h
    · rename_i hsystem
      obtain ⟨entry, hentry, rfl⟩ := Option.map_eq_some_iff.1 h
      have hmem := List.mem_of_find?_eq_some hentry
      have hname := List.find?_some hentry
      rw [decide_eq_true_eq] at hname
      rw [hsystem, codePath_singleton, ← hname]
      exact .keyword hmem
    · cases h
  · cases h

/-- The name that the resolver writes for a known type means its full name. -/
theorem denotes_declared {r : Resolver} {ns : Namespace} {outer : String} {nested : List String}
    {args : List TypeRef} (hknown : r.Knows (.named ns outer nested args)) :
    r.Denotes (r.codeNaming.declared ns outer nested args)
      (r.fullNaming.declared ns outer nested args) := by
  obtain ⟨⟨hns, houter, hnested⟩, hdeclared, -⟩ := hknown
  unfold codeNaming fullNaming
  dsimp only
  split
  · exact denotes_keyword ‹_›
  · exact denotes_qualified hns houter hnested (hdeclared ‹_›)

/-- A placeholder designates a generated type of the hierarchy. -/
theorem mem_generatedTypes_of_modelOf {r : Resolver} {p : Placeholder} {t : ContentType}
    (h : r.modelOf p = .ok t) : t ∈ r.hierarchy.generatedTypes := by
  unfold modelOf at h
  dsimp only at h
  split at h
  · cases h
  · rename_i u hone
    split at h
    · rename_i hgenerated
      cases h
      have hmem := List.mem_singleton_self t
      rw [← hone] at hmem
      have hwith : t ∈ r.hierarchy.withAlias p.aliasName := by
        split at hmem
        · exact List.mem_of_find?_eq_some (Option.mem_toList.1 hmem)
        · exact hmem
      exact List.mem_filter.2 ⟨(List.mem_filter.1 hwith).1, hgenerated⟩
    · cases h
  · cases h

/-- The models of generated types are declared in the models' namespace. -/
theorem declares_model {r : Resolver} {catalog : List DeclaredType} {modelsNamespace : Namespace}
    (hr : r.symbols = .build catalog r.hierarchy modelsNamespace) {t : ContentType}
    (ht : t ∈ r.hierarchy.generatedTypes) : r.Declares t.className modelsNamespace := by
  refine ⟨⟨t.className, modelsNamespace, .model t.id⟩, ?_, rfl⟩
  have hclass : t ∈ r.hierarchy.generatedTypes.filter fun u => u.className = t.className :=
    List.mem_filter.2 ⟨ht, decide_eq_true rfl⟩
  rw [hr]
  exact SymbolTable.mem_declarationsOf_build_iff.2
    (List.mem_append_right _ (List.mem_append_left _ (List.mem_map_of_mem hclass)))

/-- The name that the resolver writes for a model means its full name. -/
theorem denotes_model {r : Resolver} {catalog : List DeclaredType} {modelsNamespace : Namespace}
    (hr : r.symbols = .build catalog r.hierarchy modelsNamespace) (hns : modelsNamespace.IsDotted)
    {t : ContentType} (ht : t ∈ r.hierarchy.generatedTypes) (hname : IsPlainName t.className) :
    r.Denotes (r.codeNaming.model t) (r.fullNaming.model t) := by
  have hmodelsNamespace : r.symbols.modelsNamespace = modelsNamespace := by rw [hr]; rfl
  have hnested : ∀ s ∈ ([] : List String), IsIdentifier s := by simp
  have hdenotes := denotes_qualified hns hname hnested (declares_model hr ht)
  rw [codePath_singleton] at hdenotes
  show r.Denotes (r.qualifier t.className r.symbols.modelsNamespace ++ t.className)
    (r.symbols.modelsNamespace.lead ++ t.className)
  rw [hmodelsNamespace]
  exact hdenotes

mutual

/-- If the names of models mean their full names, the spelling that the resolver writes for a known
reference means the full expansion. -/
theorem exists_expand_of_spell {r : Resolver} (hmodels : ∀ t ∈ r.hierarchy.generatedTypes,
    r.Denotes (r.codeNaming.model t) (r.fullNaming.model t)) :
    ∀ {t : TypeRef} {e : Spelling}, r.Knows t →
    r.spell r.codeNaming t = some e → ∃ f, r.expand t = some f ∧ r.Reads e f
  | .named ns outer nested args, e, hknown, h => by
    rw [spell] at h
    obtain ⟨es, hes, rfl⟩ := Option.map_eq_some_iff.1 h
    obtain ⟨fs, hfs, hreads⟩ := exists_expands_of_spells hmodels hknown.2.2 hes
    refine ⟨.name (r.fullNaming.declared ns outer nested args) fs, ?_, ?_⟩
    · rw [expand, spell, hfs]
      rfl
    · exact ⟨denotes_declared hknown, hreads⟩
  | .model target, e, _, h => by
    rw [spell] at h
    rw [expand, spell]
    cases hmodel : r.modelOf target with
    | error fault =>
      rw [hmodel] at h
      cases h
    | ok t =>
      rw [hmodel] at h
      cases h
      have ht := mem_generatedTypes_of_modelOf hmodel
      exact ⟨_, rfl, hmodels t ht, trivial⟩
  | .array element, e, hknown, h => by
    rw [spell] at h
    obtain ⟨e, he, rfl⟩ := Option.map_eq_some_iff.1 h
    obtain ⟨f, hf, hreads⟩ := exists_expand_of_spell hmodels (t := element) hknown he
    refine ⟨.array f, ?_, hreads⟩
    rw [expand] at hf ⊢
    rw [spell, hf]
    rfl

/-- If the names of models mean their full names, the spellings that the resolver writes for known
references mean the full expansions. -/
theorem exists_expands_of_spells {r : Resolver} (hmodels : ∀ t ∈ r.hierarchy.generatedTypes,
    r.Denotes (r.codeNaming.model t) (r.fullNaming.model t)) :
    ∀ {ts : List TypeRef} {es : List Spelling}, r.KnowsAll ts →
    r.spells r.codeNaming ts = some es →
    ∃ fs, r.spells r.fullNaming ts = some fs ∧ r.ReadsAll es fs
  | [], es, _, h => by
    cases h
    exact ⟨[], rfl, trivial⟩
  | t :: ts, es, hknown, h => by
    rw [spells] at h
    obtain ⟨e, he, hrest⟩ := Option.bind_eq_some_iff.1 h
    obtain ⟨es, hes, rfl⟩ := Option.map_eq_some_iff.1 hrest
    obtain ⟨f, hf, hread⟩ := exists_expand_of_spell hmodels hknown.1 he
    obtain ⟨fs, hfs, hreads⟩ := exists_expands_of_spells hmodels hknown.2 hes
    refine ⟨f :: fs, ?_, hread, hreads⟩
    rw [expand] at hf
    rw [spells, hf, hfs]
    rfl

end

/-- With the symbols of a catalog and of the models of a hierarchy, two known references that are
resolved to one text have the same full expansion. In particular, a symbol is written without its
namespace for one of its namespaces at most. -/
theorem resolve_determines_expansion {r : Resolver} {catalog : List DeclaredType}
    {modelsNamespace : Namespace} (hr : r.symbols = .build catalog r.hierarchy modelsNamespace)
    (hns : modelsNamespace.IsDotted)
    (hmodels : ∀ t ∈ r.hierarchy.generatedTypes, IsPlainName t.className) :
    (∀ (t t' : TypeRef) (s : String), r.Knows t → r.Knows t' →
      r.resolve t = .ok s → r.resolve t' = .ok s →
      ∃ f, r.expand t = some f ∧ r.expand t' = some f) ∧
    ∀ (symbol : String) (ns ns' : Namespace), r.Declares symbol ns → r.Declares symbol ns' →
      r.isAmbiguous symbol ns = false → r.isAmbiguous symbol ns' = false → ns = ns' := by
  refine ⟨fun t t' s hknown hknown' h h' => ?_, fun _ _ _ => eq_of_not_ambiguous⟩
  have hdenotes := fun t ht => denotes_model hr hns ht (hmodels t ht)
  obtain ⟨e, he, rfl⟩ := exists_spell_of_resolve h
  obtain ⟨e', he', htext⟩ := exists_spell_of_resolve h'
  obtain ⟨f, hf, hreads⟩ := exists_expand_of_spell hdenotes hknown he
  obtain ⟨f', hf', hreads'⟩ := exists_expand_of_spell hdenotes hknown' he'
  obtain rfl := Spelling.text_injective hreads.readable hreads'.readable htext
  obtain rfl := hreads.unique hreads'
  exact ⟨f, hf, hf'⟩

/-- A single page. -/
def pageTypes : List ContentType :=
  [{ id := 1, aliasName := "page", className := "Page", itemType := .content }]

/-- The resolver for models beside a catalog of encodings. -/
def pageResolver : Resolver where
  symbols := .build [⟨⟨"System.Text"⟩, "Encoding"⟩] ⟨pageTypes⟩ ⟨"Site.Models"⟩
  hierarchy := ⟨pageTypes⟩
  scope := ⟨⟨"Site.Models"⟩, [⟨"System.Text"⟩]⟩

/-- Pages are written alike by the placeholder and by the name of their model, and both stand for
the model's full name. -/
theorem page_text_determines_expansion :
    Hierarchy.ofTypes .sourceCode pageTypes = .ok ⟨pageTypes⟩ ∧
      pageResolver.resolve (.array (.model ⟨"page", none⟩)) = .ok "Page[]" ∧
      pageResolver.resolve (.array (.plain ⟨"Site.Models"⟩ "Page")) = .ok "Page[]" ∧
      ∃ f, pageResolver.expand (.array (.model ⟨"page", none⟩)) = some f ∧
        pageResolver.expand (.array (.plain ⟨"Site.Models"⟩ "Page")) = some f := by
  have hok : Hierarchy.ofTypes .sourceCode pageTypes = .ok ⟨pageTypes⟩ :=
    Hierarchy.ofTypes_sourceCode_eq_ok (by decide +kernel)
  have hns : Namespace.IsDotted ⟨"Site.Models"⟩ :=
    ⟨["Site", "Models"], by unfold IsIdentifier; decide +kernel, by decide +kernel⟩
  have hpage : IsPlainName "Page" := by unfold IsPlainName IsIdentifier; decide +kernel
  have hmodels : ∀ t ∈ pageResolver.hierarchy.generatedTypes, IsPlainName t.className := by
    unfold IsPlainName IsIdentifier
    decide +kernel
  have hdeclares : pageResolver.Declares "Page" ⟨"Site.Models"⟩ :=
    ⟨⟨"Page", ⟨"Site.Models"⟩, .model 1⟩, by decide +kernel, rfl⟩
  have hknown : pageResolver.Knows (.array (.plain ⟨"Site.Models"⟩ "Page")) :=
    ⟨⟨hns, hpage, by simp⟩, fun _ => hdeclares, trivial⟩
  have htext : pageResolver.resolve (.array (.model ⟨"page", none⟩)) = .ok "Page[]" :=
    Draft.toExcept_eq_ok_iff.2 (by decide +kernel)
  have htext' : pageResolver.resolve (.array (.plain ⟨"Site.Models"⟩ "Page")) = .ok "Page[]" :=
    Draft.toExcept_eq_ok_iff.2 (by decide +kernel)
  obtain ⟨hexpand, -⟩ := resolve_determines_expansion (r := pageResolver) rfl hns hmodels
  exact ⟨hok, htext, htext', hexpand _ _ _ trivial hknown htext htext'⟩

end Resolver

end ContentModels
