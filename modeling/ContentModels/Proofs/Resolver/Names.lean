import ContentModels.Identifier
import ContentModels.Proofs.Resolver.Spelling

/-!
# The names that code is made of

Names and dotted names, and what tells them apart in code: neither holds a delimiter or a colon, and
a path of names ends its first one at the first dot (`codePath_inj_outer`).
-/

namespace ContentModels

/-- The text is an identifier. -/
def IsIdentifier (s : String) : Prop := isIdentifier s.toList = true

/-- The text is an identifier, and no keyword of a type. -/
def IsPlainName (s : String) : Prop := IsIdentifier s ∧ s ∉ TypeRef.keywords.map Prod.snd

/-- The namespace is a dotted identifier, or the global one. -/
def Namespace.IsDotted (ns : Namespace) : Prop :=
  ∃ segments : List String, (∀ s ∈ segments, IsIdentifier s) ∧ ns = .ofSegments segments

/-- The text holds only what identifiers are made of, and dots. -/
def IsDottedText (s : String) : Prop := ∀ c ∈ s.toList, isNamePart c = true ∨ c = '.'

/-- What an identifier starts with, it can go on with. -/
theorem isNamePart_of_isNameStart {c : Char} (h : isNameStart c = true) : isNamePart c = true := by
  unfold isNameStart at h
  unfold isNamePart Char.isAlphanum
  simp only [Bool.or_eq_true, decide_eq_true_eq] at h ⊢
  exact h.imp_left .inl

/-- An identifier is not empty. -/
theorem IsIdentifier.toList_ne_nil {s : String} (h : IsIdentifier s) : s.toList ≠ [] := by
  intro hnil
  unfold IsIdentifier at h
  rw [hnil] at h
  cases h

/-- An identifier is made of what identifiers can go on with. -/
theorem IsIdentifier.isNamePart {s : String} (h : IsIdentifier s) :
    ∀ c ∈ s.toList, isNamePart c = true := by
  unfold IsIdentifier at h
  intro c hc
  cases hs : s.toList with
  | nil =>
    rw [hs] at hc
    cases hc
  | cons d l =>
    rw [hs] at h hc
    unfold isIdentifier at h
    rw [Bool.and_eq_true, List.all_eq_true] at h
    rcases List.mem_cons.1 hc with rfl | hc
    · exact isNamePart_of_isNameStart h.1
    · exact h.2 c hc

/-- No dot is part of an identifier. -/
theorem IsIdentifier.not_dot {s : String} (h : IsIdentifier s) :
    ∀ c ∈ s.toList, decide (c = '.') = false := by
  intro c hc
  rw [decide_eq_false_iff_not]
  rintro rfl
  have hpart := h.isNamePart '.' hc
  cases hpart

/-- An identifier is a dotted text without dots. -/
theorem IsIdentifier.isDottedText {s : String} (h : IsIdentifier s) : IsDottedText s :=
  fun c hc => .inl (h.isNamePart c hc)

/-- Dotted texts make up a dotted text. -/
theorem IsDottedText.append {s t : String} (hs : IsDottedText s) (ht : IsDottedText t) :
    IsDottedText (s ++ t) := by
  intro c hc
  rw [String.toList_append] at hc
  rcases List.mem_append.1 hc with hc | hc
  · exact hs c hc
  · exact ht c hc

/-- Keywords are identifiers, and tell the types that have them apart. -/
theorem keywords_sound : ∀ p ∈ TypeRef.keywords, isIdentifier p.2.toList = true ∧
    ∀ q ∈ TypeRef.keywords, p.2 = q.2 → p.1 = q.1 := by
  decide +kernel

/-- Keywords are identifiers. -/
theorem isIdentifier_of_mem_keywords {name keyword : String}
    (h : (name, keyword) ∈ TypeRef.keywords) : IsIdentifier keyword :=
  (keywords_sound _ h).1

/-- Identifiers with dots between them are a dotted text. -/
theorem isDottedText_intercalate {names : List String} (h : ∀ s ∈ names, IsIdentifier s) :
    IsDottedText (".".intercalate names) := by
  have hdot : IsDottedText "." := by simp [IsDottedText]
  induction names with
  | nil => simp [IsDottedText]
  | cons s names ih =>
    have hs : IsDottedText s := (h s List.mem_cons_self).isDottedText
    have hrest := ih fun t ht => h t (List.mem_cons_of_mem s ht)
    cases names with
    | nil => rwa [String.intercalate_singleton]
    | cons t names =>
      rw [String.intercalate_cons_cons]
      exact (hs.append hdot).append hrest

/-- What stands before a name of a dotted namespace is a dotted text. -/
theorem Namespace.IsDotted.isDottedText_lead {ns : Namespace} (h : ns.IsDotted) :
    IsDottedText ns.lead := by
  obtain ⟨segments, hsegments, rfl⟩ := h
  unfold Namespace.lead
  split
  · simp [IsDottedText]
  · exact (isDottedText_intercalate hsegments).append (by simp [IsDottedText])

/-- The names of a nested type are a dotted text. -/
theorem isDottedText_codePath {outer : String} {nested : List String} (houter : IsIdentifier outer)
    (hnested : ∀ s ∈ nested, IsIdentifier s) : IsDottedText (TypeRef.codePath outer nested) :=
  isDottedText_intercalate (List.forall_mem_cons.2 ⟨houter, hnested⟩)

/-- A dotted text holds no delimiter. -/
theorem IsDottedText.undelimited {s : String} (h : IsDottedText s) : Undelimited s := by
  intro c hc
  rw [Bool.eq_false_iff]
  intro hdelimiter
  unfold isDelimiter at hdelimiter
  simp only [Bool.or_eq_true, decide_eq_true_eq] at hdelimiter
  have hchar := h c hc
  rcases hdelimiter with ((rfl | rfl) | rfl) | rfl <;> simp [isNamePart] at hchar

/-- A dotted text holds no colon. -/
theorem IsDottedText.ne_global {s : String} (h : IsDottedText s) (t : String) :
    s ≠ "global::" ++ t := by
  rintro rfl
  have hcolon := h ':' (by simp)
  simp [isNamePart] at hcolon

/-- Behind the first name of a path stands a dot, or nothing. -/
theorem toList_codePath (outer : String) (nested : List String) :
    ∃ rest, (TypeRef.codePath outer nested).toList = outer.toList ++ rest ∧
      ∀ c ∈ rest.head?, decide (c = '.') = true := by
  unfold TypeRef.codePath TypeRef.path
  cases nested with
  | nil => exact ⟨[], by simp, by simp⟩
  | cons s nested =>
    refine ⟨'.' :: (".".intercalate (s :: nested)).toList, ?_, by simp⟩
    rw [String.intercalate_cons_cons, String.toList_append, String.toList_append,
      List.append_assoc]
    rfl

/-- Paths of names that are written alike start with the same name. -/
theorem codePath_inj_outer {outer outer' : String} {nested nested' : List String}
    (houter : IsIdentifier outer) (houter' : IsIdentifier outer')
    (h : TypeRef.codePath outer nested = TypeRef.codePath outer' nested') : outer = outer' := by
  obtain ⟨rest, htext, hrest⟩ := toList_codePath outer nested
  obtain ⟨rest', htext', hrest'⟩ := toList_codePath outer' nested'
  have hlists : outer.toList ++ rest = outer'.toList ++ rest' := by rw [← htext, ← htext', h]
  have hsame := (append_inj_of_separator houter.not_dot houter'.not_dot hrest hrest' hlists).1
  exact String.toList_injective hsame

end ContentModels
