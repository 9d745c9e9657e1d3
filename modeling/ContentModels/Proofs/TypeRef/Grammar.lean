import ContentModels.Proofs.Resolver.Names
import ContentModels.Text.WhiteSpace

/-!
# The grammar of type references

`TypeRef.Derives` relates a text to the type reference that it is written for, one rule of the
grammar at a time and without a reader. Blanks have their places in it, next to what separates
generic arguments and inside a rank, and a text with any other white space is not derived
(`Derives.whiteSpaceInPlace`).
-/

namespace ContentModels

namespace TypeRef

/-! ## The grammar -/

/-- The text is a run of blanks, possibly of none. -/
def IsBlankRun (l : List Char) : Prop := ∀ c ∈ l, isBlank c = true

/-- The text is an alias as placeholders give it: letters, digits and underscores, at least one of
them. -/
def IsAlias (s : String) : Prop := s.toList ≠ [] ∧ ∀ c ∈ s.toList, isNamePart c = true

/-- The names, each with the mark behind it. -/
def ended (mark : Char) (names : List String) : List Char :=
  names.flatMap fun s => s.toList ++ [mark]

/-- The names, each with the mark before it. -/
def marked (mark : Char) (names : List String) : List Char :=
  names.flatMap fun s => mark :: s.toList

/-- A mark behind names with the mark before them is one in front of names with it behind them. -/
theorem marked_append (mark : Char) (names : List String) :
    marked mark names ++ [mark] = mark :: ended mark names := by
  induction names with
  | nil => rfl
  | cons s names ih =>
    unfold marked ended at ih ⊢
    rw [List.flatMap_cons, List.flatMap_cons, List.append_assoc, ih]
    simp

/-- Names with a mark between them have it behind the first name before each of the others. -/
theorem toList_intercalate (mark : Char) (first : String) (names : List String) :
    ((String.singleton mark).intercalate (first :: names)).toList =
      first.toList ++ marked mark names := by
  induction names generalizing first with
  | nil => simp [marked]
  | cons s names ih =>
    rw [String.intercalate_cons_cons, String.toList_append, String.toList_append, ih]
    simp [marked]

/-- The namespace of identifiers is the global one if there are none. -/
theorem ofSegments_eq_global_iff {segments : List String} (h : ∀ s ∈ segments, IsIdentifier s) :
    Namespace.ofSegments segments = .global ↔ segments = [] := by
  constructor
  · intro hglobal
    cases segments with
    | nil => rfl
    | cons s segments =>
      have htext : (".".intercalate (s :: segments)).toList = [] :=
        congrArg (fun ns : Namespace => ns.text.toList) hglobal
      rw [show "." = String.singleton '.' from rfl, toList_intercalate,
        List.append_eq_nil_iff] at htext
      exact absurd htext.1 (h s List.mem_cons_self).toList_ne_nil
  · rintro rfl
    rfl

/-- The names of a declared type, as a text gives them. -/
structure Path where
  /-- Whether the mark of the root stands in front. -/
  rooted : Bool
  /-- The segments of the namespace. -/
  segments : List String
  /-- The name of the type, or of the outermost one around it. -/
  outer : String
  /-- The names of the types nested in it, outermost first. -/
  nested : List String
  /-- The segments are identifiers. -/
  segments_identifiers : ∀ s ∈ segments, IsIdentifier s
  /-- The name of the outer type is an identifier. -/
  outer_identifier : IsIdentifier outer
  /-- The nested names are identifiers. -/
  nested_identifiers : ∀ s ∈ nested, IsIdentifier s

/-- The text of a path: dots behind the segments, and plus signs before the nested names. -/
def Path.text (p : Path) : List Char :=
  (if p.rooted then "global::".toList else []) ++
    (ended '.' p.segments ++ (p.outer.toList ++ marked '+' p.nested))

/-- The type that a path names, with generic arguments. -/
def Path.type (p : Path) (args : List TypeRef) : TypeRef :=
  .named (.ofSegments p.segments) p.outer p.nested args

/-- The path is a keyword and stands alone, so that it does not name a declared type. -/
def Path.IsKeyword (p : Path) (args : List TypeRef) : Prop :=
  p.rooted = false ∧ p.segments = [] ∧ p.nested = [] ∧ args = [] ∧ p.outer ∈ keywords.map Prod.snd

mutual

/-- The text is derived as a type: a base and any number of ranks behind it, each of which makes an
array. -/
inductive Derives : List Char → TypeRef → Prop
  /-- A base is a type. -/
  | base {l : List Char} {t : TypeRef} : DerivesBase l t → Derives l t
  /-- A type with a rank behind it is an array. -/
  | array {l blanks : List Char} {t : TypeRef} : Derives l t → IsBlankRun blanks →
    Derives (l ++ ('[' :: blanks ++ [']'])) (.array t)

/-- The text is derived as a type without ranks. -/
inductive DerivesBase : List Char → TypeRef → Prop
  /-- A placeholder may hold an alias only. -/
  | model {aliasName : String} : IsAlias aliasName →
    DerivesBase ('{' :: aliasName.toList ++ ['}']) (.model ⟨aliasName, none⟩)
  /-- A placeholder may hold an alias and the name of an item type, in letters of any case. -/
  | modelOf {aliasName word : String} {kind : ItemType} : IsAlias aliasName → IsIdentifier word →
    word.toList.map Char.toLower = kind.name.toList.map Char.toLower →
    DerivesBase ('{' :: aliasName.toList ++ (':' :: word.toList ++ ['}']))
      (.model ⟨aliasName, some kind⟩)
  /-- A keyword stands for its type of the namespace `System`. -/
  | keyword {name word : String} : (name, word) ∈ keywords →
    DerivesBase word.toList (.named ⟨"System"⟩ name [] [])
  /-- A path names a declared type, unless it is a keyword. -/
  | named {p : Path} {args : List TypeRef} {l : List Char} : DerivesList l args →
    ¬ p.IsKeyword args → DerivesBase (p.text ++ l) (p.type args)

/-- The text is derived as a list of generic arguments, or there is none. -/
inductive DerivesList : List Char → List TypeRef → Prop
  /-- A type need not have arguments. -/
  | none : DerivesList [] []
  /-- An angle bracket opens the list. -/
  | some {l : List Char} {args : List TypeRef} : DerivesArguments l args →
    DerivesList ('<' :: l) args

/-- The text is derived as generic arguments, at least one, with what ends their list. -/
inductive DerivesArguments : List Char → List TypeRef → Prop
  /-- Behind the last argument, an angle bracket closes the list. -/
  | last {before l after : List Char} {t : TypeRef} : IsBlankRun before → Derives l t →
    IsBlankRun after → DerivesArguments (before ++ (l ++ (after ++ ['>']))) [t]
  /-- Behind any other argument, a comma stands before the next one. -/
  | more {before l after rest : List Char} {t : TypeRef} {args : List TypeRef} :
    IsBlankRun before → Derives l t → IsBlankRun after → DerivesArguments rest args →
    DerivesArguments (before ++ (l ++ (after ++ ',' :: rest))) (t :: args)

end

/-- Only the empty text is derived as no arguments. -/
theorem DerivesList.eq_nil {l : List Char} (h : DerivesList l []) : l = [] := by
  cases h with
  | none => rfl
  | some hargs => cases hargs

/-! ## White space -/

/-- White space between the two parts of a text is in its place: it is a blank, and only blanks lie
between it and what opens a list or a rank or sets off an argument. -/
def InPlace (c : Char) (before after : List Char) : Prop :=
  isBlank c = true ∧
    ((∃ l blanks d, before = l ++ d :: blanks ∧ IsBlankRun blanks ∧ (d = '<' ∨ d = ',' ∨ d = '[')) ∨
      ∃ l blanks d, after = blanks ++ d :: l ∧ IsBlankRun blanks ∧ (d = '>' ∨ d = ','))

/-- All white space of the text is in its place. -/
def WhiteSpaceInPlace (l : List Char) : Prop :=
  ∀ before after c, l = before ++ c :: after → isWhiteSpace c = true → InPlace c before after

/-- White space stays in its place if something is written before and behind. -/
theorem InPlace.append {c : Char} {before after : List Char} (h : InPlace c before after)
    (front back : List Char) : InPlace c (front ++ before) (after ++ back) := by
  refine ⟨h.1, h.2.imp ?_ ?_⟩
  · rintro ⟨l, blanks, d, rfl, hblanks, hd⟩
    exact ⟨front ++ l, blanks, d, by rw [List.append_assoc], hblanks, hd⟩
  · rintro ⟨l, blanks, d, rfl, hblanks, hd⟩
    exact ⟨l ++ back, blanks, d, by rw [List.append_assoc]; rfl, hblanks, hd⟩

/-- In two texts, one behind the other, white space is in its place if it is in both. -/
theorem WhiteSpaceInPlace.append {l l' : List Char} (h : WhiteSpaceInPlace l)
    (h' : WhiteSpaceInPlace l') : WhiteSpaceInPlace (l ++ l') := by
  intro before after c heq hc
  rcases List.append_eq_append_iff.1 heq with ⟨front, rfl, heq'⟩ | ⟨back, heq', hrest⟩
  · have hplace := (h' front after c heq' hc).append l []
    rwa [List.append_nil] at hplace
  · cases back with
    | nil =>
      have hplace := (h' [] after c (by simpa using hrest.symm) hc).append before []
      rw [List.append_nil] at heq'
      simpa using hplace
    | cons d back =>
      obtain ⟨rfl, rfl⟩ := List.cons.inj hrest
      exact (h before back c heq' hc).append [] l'

/-- A text without white space has it in its place. -/
theorem whiteSpaceInPlace_of_forall {l : List Char} (h : ∀ c ∈ l, isWhiteSpace c = false) :
    WhiteSpaceInPlace l := by
  intro before after c heq hc
  rw [h c (heq ▸ List.mem_append_right before List.mem_cons_self)] at hc
  cases hc

/-- Blanks are in their place behind what opens a list or a rank, or sets off an argument. -/
theorem whiteSpaceInPlace_opened {d : Char} (hd : d = '<' ∨ d = ',' ∨ d = '[') {blanks : List Char}
    (hblanks : IsBlankRun blanks) : WhiteSpaceInPlace (d :: blanks) := by
  intro before after c heq hc
  cases before with
  | nil =>
    obtain ⟨rfl, -⟩ := List.cons.inj heq
    rcases hd with rfl | rfl | rfl <;> exact absurd hc (by decide)
  | cons e before =>
    obtain ⟨rfl, rfl⟩ := List.cons.inj heq
    refine ⟨hblanks c (by simp), .inl ⟨[], before, d, rfl, fun b hb => ?_, hd⟩⟩
    exact hblanks b (List.mem_append_left _ hb)

/-- Blanks are in their place before what closes a list or sets off an argument. -/
theorem WhiteSpaceInPlace.closed {d : Char} {l : List Char} (h : WhiteSpaceInPlace (d :: l))
    (hd : d = '>' ∨ d = ',') {blanks : List Char} (hblanks : IsBlankRun blanks) :
    WhiteSpaceInPlace (blanks ++ d :: l) := by
  induction blanks with
  | nil => exact h
  | cons b blanks ih =>
    have hrest : IsBlankRun blanks := fun c hc => hblanks c (List.mem_cons_of_mem b hc)
    intro before after c heq hc
    cases before with
    | nil =>
      obtain ⟨rfl, rfl⟩ := List.cons.inj heq
      exact ⟨hblanks b List.mem_cons_self, .inr ⟨l, blanks, d, rfl, hrest, hd⟩⟩
    | cons e before =>
      obtain ⟨rfl, htail⟩ := List.cons.inj heq
      have hplace := (ih hrest before after c htail hc).append [b] []
      rwa [List.append_nil] at hplace

/-- The characters of names lie between the digits and the small letters. -/
theorem toNat_of_isNamePart {c : Char} (h : isNamePart c = true) :
    48 ≤ c.toNat ∧ c.toNat ≤ 122 := by
  unfold isNamePart at h
  rw [Bool.or_eq_true, decide_eq_true_eq] at h
  rcases h with h | rfl
  · delta Char.isAlphanum Char.isAlpha Char.isUpper Char.isLower Char.isDigit at h
    simp only [Bool.or_eq_true, Bool.and_eq_true, decide_eq_true_eq, ge_iff_le,
      UInt32.le_iff_toNat_le] at h
    change (65 ≤ c.toNat ∧ c.toNat ≤ 90 ∨ 97 ≤ c.toNat ∧ c.toNat ≤ 122) ∨
      48 ≤ c.toNat ∧ c.toNat ≤ 57 at h
    omega
  · decide

/-- No white space is part of a name. -/
theorem isWhiteSpace_of_isNamePart {c : Char} (h : isNamePart c = true) :
    isWhiteSpace c = false := by
  have hcode := toNat_of_isNamePart h
  simp only [isWhiteSpace, whiteSpaceRanges, List.any_cons, List.any_nil, Bool.or_false,
    Bool.or_eq_false_iff, Bool.and_eq_false_iff, decide_eq_false_iff_not]
  omega

/-- What stands in the mark of the root before its colons is an identifier. -/
theorem isIdentifier_global : IsIdentifier "global" := by
  unfold IsIdentifier
  decide

/-- Behind names and between them, nothing but marks is written. -/
theorem Path.isNamePart_or_mark {p : Path} {c : Char} (hc : c ∈ p.text) :
    isNamePart c = true ∨ c = '.' ∨ c = '+' ∨ c = ':' := by
  simp only [text, ended, marked, List.mem_append, List.mem_flatMap] at hc
  rcases hc with hc | ⟨s, hs, hc | hc⟩ | hc | ⟨s, hs, hc⟩
  · split at hc
    · rw [show "global::".toList = "global".toList ++ [':', ':'] from rfl, List.mem_append] at hc
      rcases hc with hc | hc
      · exact .inl (isIdentifier_global.isNamePart c hc)
      · exact .inr (.inr (.inr (by simpa using hc)))
    · cases hc
  · exact .inl ((p.segments_identifiers s hs).isNamePart c hc)
  · exact .inr (.inl (List.mem_singleton.1 hc))
  · exact .inl (p.outer_identifier.isNamePart c hc)
  · rcases List.mem_cons.1 hc with rfl | hc
    · exact .inr (.inr (.inl rfl))
    · exact .inl ((p.nested_identifiers s hs).isNamePart c hc)

/-- Paths hold no white space. -/
theorem Path.whiteSpaceInPlace (p : Path) : WhiteSpaceInPlace p.text := by
  refine whiteSpaceInPlace_of_forall fun c hc => ?_
  rcases p.isNamePart_or_mark hc with hpart | rfl | rfl | rfl
  · exact isWhiteSpace_of_isNamePart hpart
  all_goals decide

/-- A character that is no white space has no white space in it. -/
theorem whiteSpaceInPlace_singleton {c : Char} (h : isWhiteSpace c = false) :
    WhiteSpaceInPlace [c] :=
  whiteSpaceInPlace_of_forall (List.forall_mem_singleton.2 h)

/-- A text made of what identifiers can go on with has no white space. -/
theorem whiteSpaceInPlace_of_isNamePart {l : List Char} (h : ∀ c ∈ l, isNamePart c = true) :
    WhiteSpaceInPlace l :=
  whiteSpaceInPlace_of_forall fun c hc => isWhiteSpace_of_isNamePart (h c hc)

mutual

/-- White space is in its place in a text that is derived as a type. -/
theorem Derives.whiteSpaceInPlace : ∀ {l : List Char} {t : TypeRef}, Derives l t →
    WhiteSpaceInPlace l
  | _, _, .base h => h.whiteSpaceInPlace
  | _, _, .array h hblanks => by
    have hrank : WhiteSpaceInPlace [']'] := whiteSpaceInPlace_singleton (by decide)
    exact h.whiteSpaceInPlace.append ((whiteSpaceInPlace_opened (by decide) hblanks).append hrank)

/-- White space is in its place in a text that is derived as a type without ranks. -/
theorem DerivesBase.whiteSpaceInPlace : ∀ {l : List Char} {t : TypeRef}, DerivesBase l t →
    WhiteSpaceInPlace l
  | _, _, .model halias => by
    have hopen : WhiteSpaceInPlace ['{'] := whiteSpaceInPlace_singleton (by decide)
    have hclose : WhiteSpaceInPlace ['}'] := whiteSpaceInPlace_singleton (by decide)
    exact (hopen.append (whiteSpaceInPlace_of_isNamePart halias.2)).append hclose
  | _, _, .modelOf halias hword _ => by
    have hopen : WhiteSpaceInPlace ['{'] := whiteSpaceInPlace_singleton (by decide)
    have hcolon : WhiteSpaceInPlace [':'] := whiteSpaceInPlace_singleton (by decide)
    have hclose : WhiteSpaceInPlace ['}'] := whiteSpaceInPlace_singleton (by decide)
    exact (hopen.append (whiteSpaceInPlace_of_isNamePart halias.2)).append
      ((hcolon.append (whiteSpaceInPlace_of_isNamePart hword.isNamePart)).append hclose)
  | _, _, .keyword hword =>
    whiteSpaceInPlace_of_isNamePart (isIdentifier_of_mem_keywords hword).isNamePart
  | _, _, .named (p := p) hlist _ => p.whiteSpaceInPlace.append hlist.whiteSpaceInPlace

/-- White space is in its place in a list of generic arguments. -/
theorem DerivesList.whiteSpaceInPlace : ∀ {l : List Char} {args : List TypeRef},
    DerivesList l args → WhiteSpaceInPlace l
  | _, _, .none => whiteSpaceInPlace_of_forall (by simp)
  | _, _, .some h => h.whiteSpaceInPlace_cons (by decide)

/-- White space is in its place in generic arguments, behind what opens their list or sets them
off. -/
theorem DerivesArguments.whiteSpaceInPlace_cons : ∀ {l : List Char} {args : List TypeRef}
    {d : Char}, DerivesArguments l args → d = '<' ∨ d = ',' → WhiteSpaceInPlace (d :: l)
  | _, _, _, .last hbefore h hafter, hd => by
    have hend : WhiteSpaceInPlace ['>'] := whiteSpaceInPlace_singleton (by decide)
    have hstart := whiteSpaceInPlace_opened (hd.imp_right .inl) hbefore
    exact hstart.append (h.whiteSpaceInPlace.append (hend.closed (.inl rfl) hafter))
  | _, _, _, .more hbefore h hafter hrest, hd => by
    have hstart := whiteSpaceInPlace_opened (hd.imp_right .inl) hbefore
    have hcomma := hrest.whiteSpaceInPlace_cons (.inr rfl)
    exact hstart.append (h.whiteSpaceInPlace.append (hcomma.closed (.inr rfl) hafter))

end

end TypeRef

end ContentModels
