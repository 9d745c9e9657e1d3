import ContentModels.Proofs.TypeRef.Parsing

/-!
# Reading the full spelling again

Types that are read have names that can be written (`TypeRef.WellFormed`), and for every such type
the full spelling `TypeRef.text` is read as that type again, with one exception: a name without a
namespace that is a keyword is read as the type that the keyword stands for (`TypeRef.reread`,
`WellFormed.derives_text`).

Only the mark of the root lets a text name such a type, so a text that roots no keyword gives a type
that comes back from its spelling (`Derives.rootsKeyword`).
-/

namespace ContentModels

namespace TypeRef

/-! ## Types that can be written -/

mutual

/-- The type is made of identifiers, dotted identifiers and aliases only. -/
def WellFormed : TypeRef → Prop
  | .named ns outer nested args =>
    ns.IsDotted ∧ IsIdentifier outer ∧ (∀ s ∈ nested, IsIdentifier s) ∧ AllWellFormed args
  | .model target => IsAlias target.aliasName
  | .array element => element.WellFormed

/-- The types are made of identifiers, dotted identifiers and aliases only. -/
def AllWellFormed : List TypeRef → Prop
  | [] => True
  | t :: ts => t.WellFormed ∧ AllWellFormed ts

end

/-- The names of the types that have keywords are identifiers. -/
theorem isIdentifier_name_of_mem_keywords {name word : String} (h : (name, word) ∈ keywords) :
    IsIdentifier name := by
  have hall : ∀ p ∈ keywords, isIdentifier p.1.toList = true := by decide +kernel
  exact hall _ h

/-- The namespace of a path is a dotted identifier, or the global one. -/
theorem Path.isDotted (p : Path) : (Namespace.ofSegments p.segments).IsDotted :=
  ⟨p.segments, p.segments_identifiers, rfl⟩

mutual

/-- A text is derived as a type that can be written. -/
theorem Derives.wellFormed : ∀ {l : List Char} {t : TypeRef}, Derives l t → t.WellFormed
  | _, _, .base h => h.wellFormed
  | _, _, .array h _ => h.wellFormed

/-- A text is derived as a type without ranks that can be written. -/
theorem DerivesBase.wellFormed : ∀ {l : List Char} {t : TypeRef}, DerivesBase l t → t.WellFormed
  | _, _, .model halias => halias
  | _, _, .modelOf halias _ _ => halias
  | _, _, .keyword hentry => by
    have hsystem : ∀ s ∈ ["System"], IsIdentifier s := by unfold IsIdentifier; decide
    have hname := isIdentifier_name_of_mem_keywords hentry
    exact ⟨⟨["System"], hsystem, rfl⟩, hname, by simp, trivial⟩
  | _, _, @DerivesBase.named p _ _ hlist _ =>
    ⟨p.isDotted, p.outer_identifier, p.nested_identifiers, hlist.allWellFormed⟩

/-- A text is derived as a list of generic arguments that can be written. -/
theorem DerivesList.allWellFormed : ∀ {l : List Char} {args : List TypeRef}, DerivesList l args →
    AllWellFormed args
  | _, _, .none => trivial
  | _, _, .some h => h.allWellFormed

/-- A text is derived as generic arguments that can be written. -/
theorem DerivesArguments.allWellFormed : ∀ {l : List Char} {args : List TypeRef},
    DerivesArguments l args → AllWellFormed args
  | _, _, .last _ h _ => ⟨h.wellFormed, trivial⟩
  | _, _, .more _ h _ hargs => ⟨h.wellFormed, hargs.allWellFormed⟩

end

/-! ## Keywords without a namespace -/

mutual

/-- Somewhere in it, the type has a keyword for a name, without a namespace, nested names or
arguments. -/
def HoldsBareKeyword : TypeRef → Prop
  | .named ns outer nested args =>
    (ns = .global ∧ nested = [] ∧ args = [] ∧ outer ∈ keywords.map Prod.snd) ∨
      AnyHoldsBareKeyword args
  | .model _ => False
  | .array element => element.HoldsBareKeyword

/-- One of the types has a keyword for a name somewhere, without a namespace, nested names or
arguments. -/
def AnyHoldsBareKeyword : List TypeRef → Prop
  | [] => False
  | t :: ts => t.HoldsBareKeyword ∨ AnyHoldsBareKeyword ts

end

mutual

/-- The type that the full spelling is read as: a keyword without a namespace becomes the type that
it stands for. -/
def reread : TypeRef → TypeRef
  | .named ns outer nested args =>
    if ns = .global ∧ nested = [] ∧ args = [] then
      (ofKeyword? outer).getD (.named ns outer nested args)
    else .named ns outer nested (rereadAll args)
  | .model target => .model target
  | .array element => .array element.reread

/-- The types that the full spellings are read as. -/
def rereadAll : List TypeRef → List TypeRef
  | [] => []
  | t :: ts => t.reread :: rereadAll ts

end

/-- The types are as many when they are read again. -/
theorem rereadAll_eq_nil_iff {args : List TypeRef} : rereadAll args = [] ↔ args = [] := by
  cases args <;> simp [rereadAll]

mutual

/-- A type is read again as itself unless it holds a keyword without a namespace. -/
theorem reread_eq_iff : ∀ t : TypeRef, t.reread = t ↔ ¬ t.HoldsBareKeyword
  | .named ns outer nested args => by
    rw [reread, HoldsBareKeyword]
    split
    · rename_i hbare
      obtain ⟨rfl, rfl, rfl⟩ := hbare
      -- What a keyword stands for is declared in a namespace, and so another type.
      by_cases hkeyword : outer ∈ keywords.map Prod.snd
      · obtain ⟨⟨name, word⟩, hentry, rfl⟩ := List.mem_map.1 hkeyword
        rw [ofKeyword?_eq hentry]
        simp [hkeyword, Namespace.global]
      · rw [ofKeyword?_eq_none hkeyword]
        simp [hkeyword, AnyHoldsBareKeyword]
    · rename_i hbare
      have hargs := rereadAll_eq_iff args
      have hnot : ¬ (ns = .global ∧ nested = [] ∧ args = [] ∧ outer ∈ keywords.map Prod.snd) :=
        fun h => hbare ⟨h.1, h.2.1, h.2.2.1⟩
      rw [or_iff_right hnot, ← hargs]
      simp
  | .model _ => by simp [reread, HoldsBareKeyword]
  | .array element => by
    rw [reread, HoldsBareKeyword, ← reread_eq_iff element, TypeRef.array.injEq]

/-- Types are read again as themselves unless one of them holds a keyword without a namespace. -/
theorem rereadAll_eq_iff : ∀ ts : List TypeRef, rereadAll ts = ts ↔ ¬ AnyHoldsBareKeyword ts
  | [] => by simp [rereadAll, AnyHoldsBareKeyword]
  | t :: ts => by
    rw [rereadAll, AnyHoldsBareKeyword, not_or, ← reread_eq_iff t, ← rereadAll_eq_iff ts,
      List.cons.injEq]

end

/-! ## Spellings are derived -/

/-- What stands before a name of the namespace are its segments, each with a dot behind it. -/
theorem toList_lead {segments : List String} (h : ∀ s ∈ segments, IsIdentifier s) :
    (Namespace.ofSegments segments).lead.toList = ended '.' segments := by
  unfold Namespace.lead
  split
  · rename_i hglobal
    rw [Namespace.isGlobal_iff, ofSegments_eq_global_iff h] at hglobal
    rw [hglobal]
    rfl
  · rename_i hglobal
    rw [Namespace.isGlobal_iff, ofSegments_eq_global_iff h] at hglobal
    obtain ⟨s, segments, rfl⟩ := List.exists_cons_of_ne_nil hglobal
    unfold Namespace.ofSegments
    rw [show "." = String.singleton '.' from rfl, String.toList_append, toList_intercalate,
      String.toList_singleton, List.append_assoc, marked_append]
    simp [ended]

/-- Identifiers are the names of a path that is not rooted, whose text is their full spelling. -/
theorem exists_path_of_isIdentifier {segments : List String} {outer : String} {nested : List String}
    (hsegments : ∀ s ∈ segments, IsIdentifier s) (houter : IsIdentifier outer)
    (hnested : ∀ s ∈ nested, IsIdentifier s) :
    ∃ p : Path, p.rooted = false ∧ p.segments = segments ∧ p.outer = outer ∧ p.nested = nested ∧
      p.text = ((Namespace.ofSegments segments).lead ++ "+".intercalate (path outer nested)).toList
      := by
  refine ⟨⟨false, segments, outer, nested, hsegments, houter, hnested⟩, rfl, rfl, rfl, rfl, ?_⟩
  rw [show "+" = String.singleton '+' from rfl, String.toList_append, toList_lead hsegments, path,
    toList_intercalate]
  rfl

/-- Arguments may have a blank in front of them. -/
theorem DerivesArguments.cons_blank {c : Char} (hc : isBlank c = true) {l : List Char}
    {args : List TypeRef} (h : DerivesArguments l args) : DerivesArguments (c :: l) args := by
  cases h with
  | @last before l after t hbefore h hafter =>
    exact @DerivesArguments.last (c :: before) l after t (List.forall_mem_cons.2 ⟨hc, hbefore⟩) h
      hafter
  | @more before l after rest t args hbefore h hafter hargs =>
    exact @DerivesArguments.more (c :: before) l after rest t args
      (List.forall_mem_cons.2 ⟨hc, hbefore⟩) h hafter hargs

/-- A placeholder with an alias is derived from its spelling. -/
theorem derivesBase_placeholder {p : Placeholder} (h : IsAlias p.aliasName) :
    DerivesBase p.text.toList (.model p) := by
  obtain ⟨aliasName, kind⟩ := p
  unfold Placeholder.text
  cases kind with
  | none =>
    have htext : ("\x7b" ++ aliasName ++ "\x7d").toList = '{' :: aliasName.toList ++ ['}'] := by
      simp
    exact htext ▸ .model h
  | some kind =>
    have hname : IsIdentifier kind.name := by
      unfold IsIdentifier
      cases kind <;> decide
    have htext : ("\x7b" ++ aliasName ++ ":" ++ kind.name ++ "\x7d").toList =
        '{' :: aliasName.toList ++ (':' :: kind.name.toList ++ ['}']) := by simp
    exact htext ▸ .modelOf h hname rfl

/-- An argument list is derived if the arguments in it are, should there be any. -/
theorem derivesList_argumentList {ts args : List TypeRef} (hnil : ts = [] → args = [])
    (h : ts ≠ [] → DerivesArguments ((", ".intercalate (texts ts)).toList ++ ['>']) args) :
    DerivesList (argumentList (texts ts)).toList args := by
  cases ts with
  | nil =>
    obtain rfl := hnil rfl
    exact .none
  | cons t ts =>
    have htext : (argumentList (texts (t :: ts))).toList =
        '<' :: ((", ".intercalate (texts (t :: ts))).toList ++ ['>']) := by
      simp [argumentList, texts]
    rw [htext]
    exact .some (h (List.cons_ne_nil t ts))

mutual

/-- The full spelling of a type that can be written is derived as the type that it is read as. -/
theorem derives_text : ∀ t : TypeRef, t.WellFormed → Derives t.text.toList t.reread
  | .named ns outer nested args, h => by
    obtain ⟨⟨segments, hsegments, rfl⟩, houter, hnested, hargs⟩ := h
    have hlist :=
      derivesList_argumentList rereadAll_eq_nil_iff.2 (derivesArguments_texts args hargs)
    obtain ⟨p, hrooted, rfl, rfl, rfl, hp⟩ := exists_path_of_isIdentifier hsegments houter hnested
    -- The head of the path tells a lone keyword from the name of a declared type.
    obtain ⟨head, hhead⟩ := exists_head p
    have htype : head.type (rereadAll args) =
        (TypeRef.named (.ofSegments p.segments) p.outer p.nested args).reread := by
      rw [hhead.type_eq, reread]
      simp only [hrooted, true_and, ofSegments_eq_global_iff hsegments, rereadAll_eq_nil_iff]
      split
      · rename_i hlone
        rw [hlone.2.2]
        rfl
      · rfl
    rw [text, String.toList_append, ← hp, ← htype]
    exact .base (hhead.derivesBase hlist)
  | .model target, h => .base (derivesBase_placeholder h)
  | .array element, h => by
    have htext : (element.text ++ "[]").toList = element.text.toList ++ ('[' :: [] ++ [']']) := by
      simp
    rw [text, htext]
    exact (derives_text element h).array (by simp [IsBlankRun])

/-- Types that can be written, at least one, with commas between them, are derived as the types that
they are read as. -/
theorem derivesArguments_texts : ∀ ts : List TypeRef, AllWellFormed ts → ts ≠ [] →
    DerivesArguments ((", ".intercalate (texts ts)).toList ++ ['>']) (rereadAll ts)
  | [], _, hne => absurd rfl hne
  | [t], h, _ => by
    have hnil : IsBlankRun [] := by simp [IsBlankRun]
    have hlast := DerivesArguments.last hnil (derives_text t h.1) hnil
    rwa [texts, texts, String.intercalate_singleton]
  | t :: u :: ts, h, _ => by
    have hnil : IsBlankRun [] := by simp [IsBlankRun]
    have hblank : isBlank ' ' = true := by decide
    have hrest := (derivesArguments_texts (u :: ts) h.2 (by simp)).cons_blank hblank
    have hmore := DerivesArguments.more hnil (derives_text t h.1) hnil hrest
    have htext : (", ".intercalate (texts (t :: u :: ts))).toList ++ ['>'] =
        t.text.toList ++ ',' :: ' ' :: ((", ".intercalate (texts (u :: ts))).toList ++ ['>']) := by
      rw [texts, texts, String.intercalate_cons_cons]
      simp
    rw [htext]
    exact hmore

end

/-- The full spelling of a type that can be written is read as that type, but for keywords without
a namespace. -/
theorem WellFormed.parse_text {t : TypeRef} (h : t.WellFormed) : parse t.text = .ok t.reread :=
  parse_eq_ok_iff.2 (derives_text t h)

/-! ## Rooted keywords -/

/-- In the text, a keyword stands behind the mark of the root, and neither the name goes on nor a
list of arguments follows. -/
def RootsKeyword (l : List Char) : Prop :=
  ∃ before word after, word ∈ keywords.map Prod.snd ∧
    l = before ++ (rootMark ++ (word.toList ++ after)) ∧ EndsNames after ∧ '<' ∉ after.head?

/-- What stands in front of a text does not keep it from rooting a keyword. -/
theorem RootsKeyword.append_left {l : List Char} (h : RootsKeyword l) (front : List Char) :
    RootsKeyword (front ++ l) := by
  obtain ⟨before, word, after, hword, rfl, hafter⟩ := h
  exact ⟨front ++ before, word, after, hword, by rw [List.append_assoc], hafter⟩

/-- A path that is no keyword, but names a keyword without a namespace, roots it, unless the keyword
is in the arguments. -/
theorem rootsKeyword_of_not_isKeyword {p : Path} {args : List TypeRef}
    (h : (p.type args).HoldsBareKeyword) (hnot : ¬ p.IsKeyword args) :
    (args = [] ∧ ∀ rest, EndsNames rest ∧ '<' ∉ rest.head? → RootsKeyword (p.text ++ rest)) ∨
      AnyHoldsBareKeyword args := by
  rw [Path.type, HoldsBareKeyword] at h
  refine h.imp_left ?_
  rintro ⟨hglobal, hnested, hargs, hword⟩
  rw [ofSegments_eq_global_iff p.segments_identifiers] at hglobal
  have hrooted : p.rooted = true := by
    rw [← Bool.not_eq_false]
    exact fun hrooted => hnot ⟨hrooted, hglobal, hnested, hargs, hword⟩
  have htext : p.text = rootMark ++ p.outer.toList := by
    unfold Path.text rootMark ended marked
    rw [hrooted, hglobal, hnested, if_pos rfl, List.flatMap_nil, List.flatMap_nil,
      List.append_nil, List.nil_append]
  exact ⟨hargs, fun rest hrest =>
    ⟨[], p.outer, rest, hword, by rw [htext, List.append_assoc, List.nil_append], hrest⟩⟩

mutual

/-- A text that is derived as a type with a keyword without a namespace roots that keyword. -/
theorem Derives.rootsKeyword : ∀ {l rest : List Char} {t : TypeRef}, Derives l t →
    t.HoldsBareKeyword → EndsBase rest → RootsKeyword (l ++ rest)
  | _, _, _, .base h, hkeyword, hrest => h.rootsKeyword hkeyword hrest
  | _, rest, _, @Derives.array l blanks _ h _, hkeyword, hrest => by
    have hend : EndsBase ('[' :: blanks ++ [']'] ++ rest) := by simp [EndsBase]
    rw [List.append_assoc]
    exact h.rootsKeyword hkeyword hend

/-- A text that is derived as a type without ranks roots the keyword without a namespace in it. -/
theorem DerivesBase.rootsKeyword : ∀ {l rest : List Char} {t : TypeRef}, DerivesBase l t →
    t.HoldsBareKeyword → EndsBase rest → RootsKeyword (l ++ rest)
  | _, _, _, .model _, hkeyword, _ => hkeyword.elim
  | _, _, _, .modelOf _ _ _, hkeyword, _ => hkeyword.elim
  | _, _, _, .keyword _, hkeyword, _ => by
    rw [HoldsBareKeyword] at hkeyword
    rcases hkeyword with ⟨hglobal, -⟩ | hkeyword
    · exact absurd hglobal (by decide)
    · exact hkeyword.elim
  | _, rest, _, @DerivesBase.named p args l hlist hnot, hkeyword, hrest => by
    rw [List.append_assoc]
    -- Either the path itself is the keyword, and then nothing stands behind it, or an argument is.
    rcases rootsKeyword_of_not_isKeyword hkeyword hnot with ⟨hargs, hroots⟩ | hargs
    · rw [hargs] at hlist
      rw [hlist.eq_nil]
      exact hroots rest hrest.endsNames
    · exact (hlist.rootsKeyword hargs).append_left p.text

/-- A text that is derived as generic arguments roots the keywords without a namespace in them. -/
theorem DerivesList.rootsKeyword : ∀ {l rest : List Char} {args : List TypeRef},
    DerivesList l args → AnyHoldsBareKeyword args → RootsKeyword (l ++ rest)
  | _, _, _, .none, hkeyword => hkeyword.elim
  | _, _, _, .some h, hkeyword => (h.rootsKeyword hkeyword).append_left ['<']

/-- A text that is derived as generic arguments, with the end of their list, roots the keywords
without a namespace in them. -/
theorem DerivesArguments.rootsKeyword : ∀ {l rest : List Char} {args : List TypeRef},
    DerivesArguments l args → AnyHoldsBareKeyword args → RootsKeyword (l ++ rest)
  | _, rest, _, @DerivesArguments.last before l after _ _ h hafter, hkeyword => by
    have hend := endsBase_argument hafter (.inl rfl) rest
    rw [argument_append]
    exact (h.rootsKeyword (hkeyword.resolve_right id) hend).append_left before
  | _, rest, _, @DerivesArguments.more before l after l' _ _ _ h hafter hargs, hkeyword => by
    rw [argument_append]
    refine RootsKeyword.append_left ?_ before
    rcases hkeyword with hkeyword | hkeyword
    · exact h.rootsKeyword hkeyword (endsBase_argument hafter (.inr rfl) (l' ++ rest))
    · exact (((hargs.rootsKeyword hkeyword).append_left [',']).append_left after).append_left l

end

/-! ## Reading what was written -/

/-- Every type that is read can be written. A type that can be written comes back from its full
spelling exactly if it holds no keyword without a namespace, and a type that is read from a text
that roots no keyword always does. -/
theorem parse_text_iff (s : String) (t : TypeRef) :
    (parse s = .ok t → t.WellFormed) ∧
      (t.WellFormed → (parse t.text = .ok t ↔ ¬ t.HoldsBareKeyword)) ∧
      (parse s = .ok t → ¬ RootsKeyword s.toList → parse t.text = .ok t) := by
  have hread : parse s = .ok t → t.WellFormed := fun h => (parse_eq_ok_iff.1 h).wellFormed
  have hwritten : t.WellFormed → (parse t.text = .ok t ↔ ¬ t.HoldsBareKeyword) := by
    intro h
    rw [h.parse_text, Except.ok.injEq, reread_eq_iff]
  refine ⟨hread, hwritten, fun h hroots => (hwritten (hread h)).2 fun hkeyword => hroots ?_⟩
  have hend : EndsBase [] := by simp [EndsBase]
  have hrooted := (parse_eq_ok_iff.1 h).rootsKeyword hkeyword hend
  rwa [List.append_nil] at hrooted

/-- The arrays of a type nested in one of the namespace `Lib.Text`, with two arguments. -/
def innerArray : TypeRef :=
  .array (.named ⟨"Lib.Text"⟩ "Outer" ["Inner"] [.int32, .model ⟨"page", none⟩])

/-- A nested type with arguments comes back from its spelling, and the type `int` without a
namespace does not. -/
theorem innerArray_parse_text :
    parse "Lib.Text.Outer+Inner<System.Int32, \x7bpage\x7d>[]" = .ok innerArray ∧
      ¬ RootsKeyword "Lib.Text.Outer+Inner<System.Int32, \x7bpage\x7d>[]".toList ∧
      parse innerArray.text = .ok innerArray ∧
      (plain .global "int").WellFormed ∧
      ¬ parse (plain .global "int").text = .ok (plain .global "int") := by
  have hnames : ∀ s ∈ ["Lib", "Text", "Outer", "Inner", "System", "Int32", "int"],
      isIdentifier s.toList = true := by decide
  have hpage : IsIdentifier "page" := by unfold IsIdentifier; decide
  have hinner : innerArray.WellFormed := by
    refine ⟨⟨["Lib", "Text"], fun s hs => hnames s ?_, by decide⟩, hnames _ (by decide),
      fun s hs => hnames s ?_, ⟨⟨["System"], fun s hs => hnames s ?_, by decide⟩,
        hnames _ (by decide), by simp, trivial⟩, ⟨by decide, hpage.isNamePart⟩, trivial⟩
    all_goals
      revert s
      decide
  have htext : innerArray.text = "Lib.Text.Outer+Inner<System.Int32, \x7bpage\x7d>[]" := by decide
  have hread : parse "Lib.Text.Outer+Inner<System.Int32, \x7bpage\x7d>[]" = .ok innerArray := by
    rw [← htext, hinner.parse_text]
    rfl
  have hunrooted : ¬ RootsKeyword "Lib.Text.Outer+Inner<System.Int32, \x7bpage\x7d>[]".toList := by
    rintro ⟨before, word, after, -, hsplit, -⟩
    have hcolon : ':' ∈ before ++ (rootMark ++ (word.toList ++ after)) :=
      List.mem_append_right before (List.mem_append_left _ (by decide))
    rw [← hsplit] at hcolon
    revert hcolon
    decide
  have hint : (plain .global "int").WellFormed :=
    ⟨⟨[], by simp, rfl⟩, hnames _ (by decide), by simp, trivial⟩
  obtain ⟨-, -, hback⟩ :=
    parse_text_iff "Lib.Text.Outer+Inner<System.Int32, \x7bpage\x7d>[]" innerArray
  obtain ⟨-, hiff, -⟩ := parse_text_iff "int" (plain .global "int")
  exact ⟨hread, hunrooted, hback hread hunrooted, hint,
    fun h => (hiff hint).1 h (.inl ⟨rfl, rfl, rfl, by decide⟩)⟩

end TypeRef

end ContentModels
