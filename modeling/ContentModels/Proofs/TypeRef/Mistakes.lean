import ContentModels.Proofs.TypeRef.Ending
import ContentModels.Proofs.TypeRef.Contexts

/-!
# The mistakes of type names

A text is misread exactly if the reader comes to a type in it that fails by itself
(`readType_eq_error_iff_fails`): `TypeRef.ComesTo` leads from a type into its arguments, at any
depth, past those in front that are complete, and `TypeRef.Fails` has one rule for each way in which
a type fails though its arguments are complete as far as they are read. Both are by the grammar, and
without a reader. So what a report tells is the innermost construct at fault, and its label starts
where that construct begins (`parse_tells_innermost`). It is also what the parser of
`Proofs.TypeRef.Contexts` comes to, which never fails without a context to tell of.
-/

namespace ContentModels

namespace TypeRef

/-! ## Where a type fails -/

/-- The reader of arguments at the front of `s` comes to read one at the front of `s'`: the first,
or one behind others that are complete. -/
inductive LeadsTo : List Char → List Char → Prop
  /-- The first argument stands behind blanks. -/
  | first {blanks s : List Char} : IsBlankRun blanks → (∀ c ∈ s.head?, isBlank c = false) →
    LeadsTo (blanks ++ s) s
  /-- Any other one stands behind the comma of a complete one. -/
  | next {before l after s s' : List Char} {t : TypeRef} : IsBlankRun before → Derives l t →
    IsBlankRun after → startsType (skipBlanks s).val = true → LeadsTo s s' →
    LeadsTo (before ++ (l ++ (after ++ ',' :: s))) s'

/-- The reader of a type at the front of `s` comes to read one at the front of `inner`. -/
inductive ComesTo : List Char → List Char → Prop
  /-- It is the type itself. -/
  | self (s : List Char) : ComesTo s s
  /-- It is an argument of the type, or what the reader of that argument comes to. -/
  | argument {p : Path} {s s' inner : List Char} : LeadsTo s s' → ComesTo s' inner →
    ComesTo (p.text ++ '<' :: s) inner

/-- Behind an argument and its blanks, arguments do not go on: neither their end follows nor a comma
with a type behind it. -/
structure BreaksArguments (rest : List Char) : Prop where
  /-- All blanks stand in front. -/
  blank : ∀ c ∈ rest.head?, isBlank c = false
  /-- The arguments do not end. -/
  close : '>' ∉ rest.head?
  /-- No type starts behind a comma. -/
  comma : ∀ s, rest = ',' :: s → startsType (skipBlanks s).val = false

/-- The type at the front of the text fails as the misreading tells, and none of its arguments
does. -/
inductive Fails : List Char → Misreading → Prop
  /-- No type starts. -/
  | noTypeName {s : List Char} : startsType s = false →
    Fails s ⟨.noTypeName, s, (unrooted s).val⟩
  /-- No alias stands behind the brace. -/
  | noAlias {s : List Char} : (∀ c ∈ s.head?, isNamePart c = false) →
    Fails ('{' :: s) ⟨.noAlias, '{' :: s, s⟩
  /-- No item type stands behind the colon. -/
  | badItemType {aliasName : String} {s rest : List Char} : IsAlias aliasName →
    s = '{' :: (aliasName.toList ++ ':' :: rest) → (∀ after, ¬ StartsItemType rest after) →
    Fails s ⟨.badItemType, s, rest⟩
  /-- Neither an item type nor the closing brace stands behind the alias. -/
  | openModel {aliasName : String} {s rest : List Char} : IsAlias aliasName →
    s = '{' :: (aliasName.toList ++ rest) →
    (∀ c ∈ rest.head?, isNamePart c = false ∧ c ≠ ':' ∧ c ≠ '}') →
    Fails s ⟨.openPlaceholder, s, rest⟩
  /-- No closing brace stands behind the item type. -/
  | openModelOf {aliasName : String} {s l rest : List Char} : IsAlias aliasName →
    s = '{' :: (aliasName.toList ++ ':' :: l) → StartsItemType l rest → '}' ∉ rest.head? →
    Fails s ⟨.openPlaceholder, s, rest⟩
  /-- No identifier stands behind a dot, or behind a plus sign. -/
  | noIdentifier {p : Path} {mark : Char} {s rest : List Char} : s = p.text ++ mark :: rest →
    mark = '.' ∧ p.nested = [] ∨ mark = '+' → startsName rest = false →
    Fails s ⟨.noIdentifier, s, rest⟩
  /-- A type with all its arguments stands in front of a rank that does not end. -/
  | openRank {l blanks s rest : List Char} {t : TypeRef} : Derives l t → IsBlankRun blanks →
    s = '[' :: (blanks ++ rest) → (∀ c ∈ rest.head?, isBlank c = false ∧ c ≠ ']') →
    Fails (l ++ s) ⟨.openRank, s, rest⟩
  /-- All arguments are complete, but they do not go on behind the last one. -/
  | openArguments {p : Path} {s l after rest : List Char} {t : TypeRef} :
    LeadsTo s (l ++ (after ++ rest)) → Derives l t → EndsType l (after ++ rest) →
    IsBlankRun after → BreaksArguments rest →
    Fails (p.text ++ '<' :: s) ⟨.openArguments, '<' :: s, rest⟩

/-! ## What is misread fails -/

/-- What the reader of arguments comes to remains of the text. -/
theorem LeadsTo.isSuffix {s s' : List Char} (h : LeadsTo s s') : s' <:+ s := by
  induction h with
  | first => exact List.suffix_append _ _
  | next _ _ _ _ _ ih =>
    exact ih.trans ⟨_, by rw [List.append_cons, ← List.append_assoc, ← List.append_assoc]⟩

/-- Names are misread behind a separator. -/
theorem exists_names_of_readNames_eq_error {separator : Char} {opened s : List Char}
    {m : Misreading} (h : readNames separator opened s = .error m) :
    ∃ names rest, (∀ n ∈ names, IsIdentifier n) ∧
      s = marked separator names ++ separator :: rest ∧ startsName rest = false ∧
      m = ⟨.noIdentifier, opened, rest⟩ := by
  obtain ⟨s', hs, ⟨hnext, rfl⟩ | ⟨name, after, hident, rfl, -, hafter⟩⟩ :=
    readNames_eq_error_iff.1 h
  · exact ⟨[], s', by simp, hs, hnext, rfl⟩
  · have hlt : after.length < s.length := by
      rw [hs, List.length_cons, List.length_append]
      omega
    obtain ⟨names, rest, hall, rfl, hnext, rfl⟩ := exists_names_of_readNames_eq_error hafter
    exact ⟨name :: names, rest, List.forall_mem_cons.2 ⟨hident, hall⟩, by simp [hs, marked], hnext,
      rfl⟩
termination_by s.length
decreasing_by exact hlt

/-- Where names are misread, no type starts, or a separator stands behind a path. -/
theorem fails_of_readHead {s : List Char} {m : Misreading} (hbrace : '{' ∉ s.head?)
    (h : readHead s = .error m) : Fails s m := by
  rcases readHead_eq_error_iff.1 h with ⟨hnext, rfl⟩ | ⟨first, after, hfirst, hs, -, hrest⟩
  · exact .noTypeName ((startsType_of_notMem hbrace).trans hnext)
  have hrooted := eq_rootMark_append_unrooted s
  rcases hrest with hdotted | ⟨dotted, after', hdotted, hnested⟩
  · obtain ⟨names, rest, hnames, rfl, hnext, rfl⟩ := exists_names_of_readNames_eq_error hdotted
    obtain ⟨p, hp⟩ := @exists_path ⟨isRooted s, first, names, []⟩ hfirst hnames (by simp)
    refine .noIdentifier ?_ (.inl ⟨rfl, hp.2.2.symm⟩) hnext
    rw [hrooted, hs, hp.text_eq, ← hp.1]
    simp [marked]
  · obtain ⟨hdots, rfl⟩ := exists_names_of_readNames hdotted
    obtain ⟨names, rest, hnames, rfl, hnext, rfl⟩ := exists_names_of_readNames_eq_error hnested
    obtain ⟨p, hp⟩ := @exists_path ⟨isRooted s, first, dotted, names⟩ hfirst hdots hnames
    refine @Fails.noIdentifier p '+' s rest ?_ (.inr rfl) hnext
    rw [hrooted, hs, hp.text_eq, ← hp.1]
    simp

/-- Where a placeholder is misread, it fails. -/
theorem fails_of_readPlaceholder {s : List Char} {m : Misreading}
    (h : readPlaceholder ('{' :: s) s = .error m) : Fails ('{' :: s) m := by
  rcases readPlaceholder_eq_error_iff.1 h with ⟨hnext, rfl⟩ |
    ⟨aliasName, after, halias, rfl, hstop, ⟨hcolon, hend, rfl⟩ |
      ⟨rest, rfl, ⟨hitem, rfl⟩ | ⟨rest', hitem, hend, rfl⟩⟩⟩
  · exact .noAlias hnext
  · refine .openModel halias rfl fun c hc => ⟨hstop c hc, ?_, ?_⟩
    · rintro rfl
      exact hcolon hc
    · rintro rfl
      exact hend hc
  · exact .badItemType halias rfl hitem
  · exact .openModelOf halias rfl hitem hend

/-- Where ranks are misread behind a type, one of them does not end. -/
theorem fails_of_readRanks {l s : List Char} {t : TypeRef} {m : Misreading} (hl : Derives l t)
    (h : readRanks t s = .error m) : Fails (l ++ s) m := by
  obtain ⟨blanks, rest, hblanks, hs, ⟨hend, rfl⟩ | ⟨after, rfl, hranks⟩⟩ :=
    readRanks_eq_error_iff.1 h
  · exact .openRank hl hblanks hs hend
  · have hlt : after.length < s.length := by
      rw [hs, List.length_cons, List.length_append, List.length_cons]
      omega
    have hfails := fails_of_readRanks (hl.array hblanks) hranks
    rw [hs]
    simpa using hfails
termination_by s.length
decreasing_by exact hlt

/-- Where arguments are misread, the reader has come to one that is misread, or behind which they do
not go on. -/
theorem exists_leadsTo_of_readArguments {opened s : List Char} {m : Misreading}
    (h : readArguments opened s = .error m) :
    ∃ s', LeadsTo s s' ∧ (readType s' = .error m ∨
      ∃ l after rest t, s' = l ++ (after ++ rest) ∧ Derives l t ∧ EndsType l (after ++ rest) ∧
        IsBlankRun after ∧ BreaksArguments rest ∧ m = ⟨.openArguments, opened, rest⟩) := by
  obtain ⟨before, hbefore, hs⟩ := exists_blanks s
  have hfirst : LeadsTo s (skipBlanks s).val := by
    have hleads := LeadsTo.first hbefore (isBlank_head?_skipBlanks s)
    rwa [← hs] at hleads
  rcases readArguments_eq_error_iff.1 h with htype | ⟨t, after, htype, hclose, hrest⟩
  · exact ⟨_, hfirst, .inl htype⟩
  obtain ⟨l, hl, hderives, hend⟩ := yields_readType_iff_derives.1 htype
  obtain ⟨blanks, hblanks, hafter⟩ := exists_blanks after
  rcases hrest with ⟨hcomma, rfl⟩ | ⟨s', hcomma, hstarts, hargs⟩
  · refine ⟨_, hfirst, .inr ⟨l, blanks, _, t, ?_, hderives, ?_, hblanks,
      ⟨isBlank_head?_skipBlanks after, hclose, hcomma⟩, rfl⟩⟩
    · rw [← hafter, hl]
    · rwa [← hafter]
  · have hlt : s'.length < s.length := by
      have hle : (skipBlanks s).val.length ≤ s.length := (skipBlanks s).property
      have hlt : after.length < (skipBlanks s).val.length := htype.rest_bound
      rw [hafter, hcomma, List.length_append, List.length_cons] at hlt
      omega
    obtain ⟨s'', hleads, hm⟩ := exists_leadsTo_of_readArguments hargs
    rw [hcomma] at hafter
    rw [hs, hl, hafter]
    exact ⟨s'', .next hbefore hderives hblanks hstarts hleads, hm⟩
termination_by s.length
decreasing_by exact hlt

/-- What is misread fails at a type that the reader comes to. -/
theorem exists_fails_of_readType {s : List Char} {m : Misreading} (h : readType s = .error m) :
    ∃ inner, ComesTo s inner ∧ Fails inner m := by
  rcases readType_eq_error_iff.1 h with
    ⟨s', rfl, hbase | ⟨base, after, hbase, hranks⟩⟩ |
      ⟨hbrace, hhead | ⟨head, after, hhead, ⟨-, hranks⟩ |
        ⟨s', rfl, hargs | ⟨args, after', hargs, hranks⟩⟩⟩⟩
  · exact ⟨_, .self _, fails_of_readPlaceholder hbase⟩
  · obtain ⟨l, hl, hderives⟩ := exists_derivesBase_of_readPlaceholder hbase
    rw [hl]
    exact ⟨_, .self _, fails_of_readRanks (.base hderives) hranks⟩
  · exact ⟨_, .self _, fails_of_readHead hbrace hhead⟩
  · obtain ⟨p, hp, rfl⟩ := exists_path_of_readHead hhead
    have hderives : DerivesBase (p.text ++ []) (head.type []) := hp.derivesBase .none
    rw [List.append_nil] at hderives
    exact ⟨_, .self _, fails_of_readRanks (.base hderives) hranks⟩
  · -- The failure is that of an argument, unless all arguments that are read are complete.
    have hlt : s'.length + 1 < s.length := hhead.rest_bound
    obtain ⟨p, hp, rfl⟩ := exists_path_of_readHead hhead
    obtain ⟨s'', hleads, htype | ⟨l, after, rest, t, rfl, hderives, hend, hafter, hrest, rfl⟩⟩ :=
      exists_leadsTo_of_readArguments hargs
    · have hle : s''.length ≤ s'.length := hleads.isSuffix.length_le
      obtain ⟨inner, hcomes, hfails⟩ := exists_fails_of_readType htype
      exact ⟨inner, .argument hleads hcomes, hfails⟩
    · exact ⟨_, .self _, .openArguments hleads hderives hend hafter hrest⟩
  · obtain ⟨p, hp, rfl⟩ := exists_path_of_readHead hhead
    obtain ⟨l, rfl, hl⟩ := exists_derives_of_readArguments hargs
    have hfails := fails_of_readRanks (.base (hp.derivesBase (.some hl))) hranks
    rw [List.append_assoc] at hfails
    exact ⟨_, .self _, hfails⟩
termination_by s.length
decreasing_by omega

/-! ## What fails is misread -/

/-- Names with separators before them are misread where no name stands behind a further one. -/
theorem readNames_eq_error {separator : Char} {opened rest : List Char} {names : List String}
    (hnames : ∀ n ∈ names, IsIdentifier n) (hseparator : isNamePart separator = false)
    (hrest : startsName rest = false) :
    readNames separator opened (marked separator names ++ separator :: rest) =
      .error ⟨.noIdentifier, opened, rest⟩ := by
  induction names with
  | nil => exact readNames_eq_error_iff.2 ⟨rest, rfl, .inl ⟨hrest, rfl⟩⟩
  | cons n names ih =>
    rw [List.forall_mem_cons] at hnames
    refine readNames_eq_error_iff.2 ⟨_, by simp [marked], .inr ⟨n, _, hnames.1, rfl, fun c hc => ?_,
      ih hnames.2⟩⟩
    rcases mem_head?_marked_append hc with rfl | hc
    · exact hseparator
    · exact Option.some.inj hc ▸ hseparator

/-- The names of a type are misread where no name stands behind a separator. -/
theorem readHead_eq_error {p : Path} {mark : Char} {rest : List Char}
    (hmark : mark = '.' ∧ p.nested = [] ∨ mark = '+') (hrest : startsName rest = false) :
    readHead (p.text ++ mark :: rest) =
      .error ⟨.noIdentifier, p.text ++ mark :: rest, rest⟩ := by
  have hpart : isNamePart mark = false := by
    rcases hmark with ⟨rfl, -⟩ | rfl <;> decide
  have hstop : ∀ c ∈ (mark :: rest).head?, isNamePart c = false := fun c hc =>
    Option.some.inj hc ▸ hpart
  have hroot : p.text = "global".toList → ¬ "::".toList <+: mark :: rest := by
    rintro - ⟨l, hl⟩
    obtain ⟨rfl, -⟩ := List.cons.inj hl
    rcases hmark with ⟨hdot, -⟩ | hplus
    · exact absurd hdot (by decide)
    · exact absurd hplus (by decide)
  obtain ⟨head, hp⟩ := exists_head p
  obtain ⟨hfirst, hdotted, hnested⟩ := hp.isIdentifier
  refine readHead_eq_error_iff.2 (.inr ⟨head.first, _, hfirst, unrooted_text_append hp hstop hroot,
    isNamePart_head?_names_append hstop, ?_⟩)
  rcases hmark with ⟨rfl, hnil⟩ | rfl
  · rw [hp.2.2, hnil]
    exact .inl (readNames_eq_error hdotted (by decide) hrest)
  · refine .inr ⟨head.dotted, _, yields_readNames hdotted (by decide) ?_ ?_,
      readNames_eq_error hnested (by decide) hrest⟩
    · exact @isNamePart_head?_names_append [] head.nested _ hstop
    · intro hc
      rcases mem_head?_marked_append hc with hc | hc
      · exact absurd hc (by decide)
      · exact absurd (Option.some.inj hc) (by decide)

/-- Where the arguments of a path are misread, the type is. -/
theorem readType_eq_error_of_readArguments {p : Path} {s : List Char} {m : Misreading}
    (h : readArguments ('<' :: s) s = .error m) : readType (p.text ++ '<' :: s) = .error m := by
  have hnames : EndsNames ('<' :: s) := by
    simp [EndsNames]; decide
  obtain ⟨head, -, hhead⟩ := exists_yields_readHead (hnames.endsPath p)
  exact readType_eq_error_iff.2 (.inr ⟨brace_notMem_head?_text_append p _, .inr ⟨head, _, hhead,
    .inr ⟨s, rfl, .inl h⟩⟩⟩)

/-- Where the reader of arguments comes to what is misread, they are. -/
theorem LeadsTo.readArguments_eq_error {opened s s' : List Char} {m : Misreading}
    (h : LeadsTo s s')
    (hs' : ∀ s, (skipBlanks s).val = s' → readArguments opened s = .error m) :
    readArguments opened s = .error m := by
  induction h with
  | first hblanks hstop => exact hs' _ (skipBlanks_append hblanks hstop)
  | @next before l after s s' t hbefore hderives hafter hstarts _ ih =>
    have hend := endsBase_argument hafter (.inr rfl) s
    have htype := (hderives.goesOn (hend.endsBare l)).value
      (yields_readRanks_of_ends hafter (by simp))
    have hcomma : (skipBlanks (after ++ ',' :: s)).val = ',' :: s :=
      skipBlanks_append hafter (by simp; decide)
    refine readArguments_eq_error_iff.2 (.inr ⟨t, _, yields_readType_skipBlanks hbefore htype, ?_,
      .inr ⟨s, hcomma, hstarts, ih hs'⟩⟩)
    rw [hcomma]
    simp

/-- What fails is misread. -/
theorem Fails.readType_eq_error {s : List Char} {m : Misreading} (h : Fails s m) :
    readType s = .error m := by
  cases h with
  | noTypeName hstarts =>
    rw [startsType, Bool.or_eq_false_iff, Option.isSome_eq_false_iff, Option.isNone_iff_eq_none,
      next?_eq_none_iff] at hstarts
    exact readType_eq_error_iff.2 (.inr ⟨hstarts.1,
      .inl (readHead_eq_error_iff.2 (.inl ⟨hstarts.2, rfl⟩))⟩)
  | noAlias hnext =>
    exact readType_eq_error_iff.2 (.inl ⟨_, rfl,
      .inl (readPlaceholder_eq_error_iff.2 (.inl ⟨hnext, rfl⟩))⟩)
  | @badItemType _ _ rest halias hs hitem =>
    have hstop : ∀ c ∈ (':' :: rest).head?, isNamePart c = false := by
      simp; decide
    exact readType_eq_error_iff.2 (.inl ⟨_, hs, .inl (readPlaceholder_eq_error_iff.2
      (.inr ⟨_, _, halias, rfl, hstop, .inr ⟨rest, rfl, .inl ⟨hitem, rfl⟩⟩⟩))⟩)
  | @openModel _ _ rest halias hs hend =>
    exact readType_eq_error_iff.2 (.inl ⟨_, hs, .inl (readPlaceholder_eq_error_iff.2
      (.inr ⟨_, rest, halias, rfl, fun c hc => (hend c hc).1,
        .inl ⟨fun hc => (hend _ hc).2.1 rfl, fun hc => (hend _ hc).2.2 rfl, rfl⟩⟩))⟩)
  | @openModelOf _ _ l rest halias hs hitem hend =>
    have hstop : ∀ c ∈ (':' :: l).head?, isNamePart c = false := by
      simp; decide
    exact readType_eq_error_iff.2 (.inl ⟨_, hs, .inl (readPlaceholder_eq_error_iff.2
      (.inr ⟨_, _, halias, rfl, hstop, .inr ⟨l, rfl, .inr ⟨rest, hitem, hend, rfl⟩⟩⟩))⟩)
  | @noIdentifier p _ _ _ hs hmark hnext =>
    subst hs
    exact readType_eq_error_iff.2 (.inr ⟨brace_notMem_head?_text_append p _,
      .inl (readHead_eq_error hmark hnext)⟩)
  | @openRank l blanks _ rest _ hderives hblanks hs hend =>
    -- The type in front of the bracket ends there, whatever it is.
    subst hs
    have hbase : EndsBase ('[' :: (blanks ++ rest)) := by simp [EndsBase]
    exact (hderives.goesOn (hbase.endsBare l)).failure
      (readRanks_eq_error_iff.2 ⟨blanks, rest, hblanks, rfl, .inl ⟨hend, rfl⟩⟩)
  | @openArguments p s l after rest t hleads hderives hend hafter hrest =>
    -- Once all blanks are skipped, the reader sees what stands behind the last argument.
    refine readType_eq_error_of_readArguments (hleads.readArguments_eq_error fun s' hs' => ?_)
    have htype := hderives.yields_of_endsType hend
    have hskip := skipBlanks_append hafter hrest.blank
    rw [← hs'] at htype
    rw [← hskip]
    refine readArguments_eq_error_iff.2 (.inr ⟨t, _, htype, ?_, .inl ⟨fun s'' hs'' => ?_, rfl⟩⟩)
    · rw [hskip]
      exact hrest.close
    · exact hrest.comma s'' (hskip ▸ hs'')

/-- What a misread type is an argument of is misread. -/
theorem ComesTo.readType_eq_error {s inner : List Char} {m : Misreading} (h : ComesTo s inner)
    (hinner : readType inner = .error m) : readType s = .error m := by
  induction h with
  | self => exact hinner
  | argument hleads _ ih =>
    refine readType_eq_error_of_readArguments (hleads.readArguments_eq_error fun s hs => ?_)
    rw [← hs] at ih
    exact readArguments_eq_error_iff.2 (.inl (ih hinner))

/-- A text is misread exactly if the reader comes to a type in it that fails. -/
theorem readType_eq_error_iff_fails {s : List Char} {m : Misreading} :
    readType s = .error m ↔ ∃ inner, ComesTo s inner ∧ Fails inner m := by
  constructor
  · exact exists_fails_of_readType
  · rintro ⟨inner, hcomes, hfails⟩
    exact hcomes.readType_eq_error hfails.readType_eq_error

/-! ## What a report tells -/

/-- What the text holds from where a construct begins that is told with the code. -/
def BeginsWith : Code → List Char → Prop
  | .expectedTypeName, s => startsType s = false
  | .trailingInput, s => s ≠ []
  | .unterminatedArguments, s => '<' ∈ s.head?
  | .missingAlias, s => '{' ∈ s.head?
  | .unknownItemType, s => '{' ∈ s.head?
  | .unterminatedPlaceholder, s => '{' ∈ s.head?
  | .expectedIdentifier, s => ∃ (p : Path) (mark : Char) (rest : List Char),
      s = p.text ++ mark :: rest ∧ (mark = '.' ∧ p.nested = [] ∨ mark = '+') ∧
        startsName rest = false
  | .unterminatedRank, s => '[' ∈ s.head?
  | .invalidNamespace, _ => False

/-- The diagnostic tells the construct at fault: with the code, by a label on the span, and where
the source is split into `front` and `rest`. -/
structure Tells (source : String) (d : Diagnostic) (code : Code) (span : Span)
    (front rest : List Char) : Prop where
  /-- It is an error. -/
  isError : d.severity = .error
  /-- It has the code. -/
  hasCode : d.code = some code
  /-- It is not told with the code of namespaces. -/
  notNamespace : code ≠ .invalidNamespace
  /-- It is what the parser in contexts answers. -/
  answer : (Parser.type source.toList).answer source.toList = .error ⟨[d]⟩
  /-- It is not told of a failure in no context. -/
  known : ∀ place, d ≠ unknownFailure place
  /-- One label is primary, and marks the span. -/
  primary : (d.labels.filter Label.isPrimary).map Label.span = [span]
  /-- The span is not empty. -/
  nonempty : span.start < span.stop
  /-- The span goes at most one byte beyond the source. -/
  bounded : span.stop ≤ source.utf8ByteSize + 1
  /-- The source is split. -/
  split : source.toList = front ++ rest
  /-- The span starts between the parts of the source. -/
  start : span.start = byteLength front
  /-- The construct at fault begins there. -/
  begins : BeginsWith code rest
  /-- Trailing input stands behind a type that does not go on. -/
  trailing : code = .trailingInput → ∃ t, Derives front t ∧ EndsType front rest
  /-- Otherwise the reader comes to a type that fails there, and to none that fails otherwise. -/
  innermost : code ≠ .trailingInput → ∃ inner m, ComesTo source.toList inner ∧ Fails inner m ∧
    m.opened = rest ∧ m.mistake.code = code ∧
    ∀ inner' m', ComesTo source.toList inner' → Fails inner' m' → m' = m
  /-- Where the parser in contexts fails, that is in a context. -/
  contexts : ∀ isFinal contexts stopped,
    Parser.type source.toList = .failure isFinal contexts stopped → contexts ≠ []

/-- What the reader of a type comes to remains of the text. -/
theorem ComesTo.isSuffix {s inner : List Char} (h : ComesTo s inner) : inner <:+ s := by
  induction h with
  | self => exact List.suffix_rfl
  | @argument p s _ _ hleads _ ih =>
    exact (ih.trans hleads.isSuffix).trans ⟨p.text ++ ['<'], by simp⟩

/-- The construct at fault stands in the text. -/
theorem Fails.isSuffix {s : List Char} {m : Misreading} (h : Fails s m) : m.opened <:+ s := by
  cases h with
  | openRank => exact List.suffix_append _ _
  | openArguments => exact List.suffix_append _ _
  | _ => exact List.suffix_rfl

/-- The construct at fault begins as its code says. -/
theorem Fails.beginsWith {s : List Char} {m : Misreading} (h : Fails s m) :
    BeginsWith m.mistake.code m.opened := by
  cases h with
  | noTypeName hstarts => exact hstarts
  | noIdentifier hs hmark hnext => exact ⟨_, _, _, hs, hmark, hnext⟩
  | noAlias => exact rfl
  | openArguments => exact rfl
  | badItemType _ hs => exact hs ▸ rfl
  | openModel _ hs => exact hs ▸ rfl
  | openModelOf _ hs => exact hs ▸ rfl
  | openRank _ _ hs => exact hs ▸ rfl

/-- The report of a misreading tells the construct at fault. -/
theorem exists_tells_of_misreading {source : String} {m : Misreading}
    (h : readType source.toList = .error m)
    (hparse : parse source = .error (m.report source.toList)) :
    ∃ d span front, m.report source.toList = ⟨[d]⟩ ∧
      Tells source d m.mistake.code span front m.opened := by
  obtain ⟨inner, hcomes, hfails⟩ := readType_eq_error_iff_fails.1 h
  obtain ⟨front, hsplit⟩ := hfails.isSuffix.trans hcomes.isSuffix
  have hstart : offset source.toList m.opened = byteLength front := byteLength_sub_of_eq hsplit.symm
  have hfront : byteLength front ≤ source.utf8ByteSize := by
    rw [← byteLength_toList, ← hsplit, byteLength_append]
    exact Nat.le_add_right _ _
  have hstopped : offset source.toList m.stopped ≤ source.utf8ByteSize := by
    rw [← byteLength_toList]
    exact Nat.sub_le _ _
  -- The span ends where the reader stood, or behind its first byte.
  let stop := max (offset source.toList m.stopped) (offset source.toList m.opened + 1)
  have hlt : offset source.toList m.opened < stop := Nat.le_max_right _ _
  have hstop : (Span.between (offset source.toList m.opened) stop).stop = stop :=
    Span.stop_between (Nat.le_of_lt hlt)
  exact ⟨_, .between (offset source.toList m.opened) stop, front, rfl, {
    isError := rfl
    hasCode := rfl
    notNamespace := by cases m.mistake <;> decide
    answer := (parse_eq_answer source).symm.trans hparse
    known := fun place heq => nomatch congrArg Diagnostic.help heq
    primary := rfl
    nonempty := by rwa [hstop]
    bounded := by rw [hstop]; exact Nat.max_le.2 ⟨by omega, by omega⟩
    split := hsplit.symm
    start := hstart
    begins := hfails.beginsWith
    trailing := fun htrailing => absurd htrailing m.mistake.code_ne_trailingInput
    innermost := fun _ => ⟨inner, m, hcomes, hfails, rfl, rfl, fun inner' m' hcomes' hfails' =>
      Except.error.inj ((readType_eq_error_iff_fails.2 ⟨inner', hcomes', hfails'⟩).symm.trans h)⟩
    contexts := fun _ _ _ => Parser.contexts_ne_nil_of_type }⟩

/-- The report of trailing input tells where it begins. -/
theorem exists_tells_of_trailing {source : String} {t : TypeRef} {rest : List Char}
    (h : Yields (readType source.toList) t rest) (hrest : rest ≠ [])
    (hparse : parse source = .error (Report.trailing source.toList rest)) :
    ∃ d span front, Report.trailing source.toList rest = ⟨[d]⟩ ∧
      Tells source d .trailingInput span front rest := by
  obtain ⟨front, hsplit, hderives, hend⟩ := yields_readType_iff_derives.1 h
  have hstart : offset source.toList rest = byteLength front := byteLength_sub_of_eq hsplit
  have hlt : offset source.toList rest < byteLength source.toList := by
    have hpos : byteLength rest ≠ 0 := mt byteLength_eq_zero_iff.1 hrest
    rw [hstart, hsplit, byteLength_append]
    omega
  have hstop : (Span.between (offset source.toList rest) (byteLength source.toList)).stop =
      byteLength source.toList := Span.stop_between (Nat.le_of_lt hlt)
  exact ⟨_, .between (offset source.toList rest) (byteLength source.toList), front, rfl, {
    isError := rfl
    hasCode := rfl
    notNamespace := by decide
    answer := (parse_eq_answer source).symm.trans hparse
    known := fun place heq => nomatch Option.some.inj (congrArg Diagnostic.code heq)
    primary := rfl
    nonempty := by rwa [hstop]
    bounded := by rw [hstop, byteLength_toList]; exact Nat.le_succ _
    split := hsplit
    start := hstart
    begins := hrest
    trailing := fun _ => ⟨t, hderives, hend⟩
    innermost := fun hne => absurd rfl hne
    contexts := fun _ _ _ => Parser.contexts_ne_nil_of_type }⟩

/-- What is not taken for a type is told by one diagnostic, an error, at the innermost construct
that fails. -/
theorem parse_tells_innermost (source : String) (report : Report)
    (h : parse source = .error report) :
    ∃ d code span front rest, report = ⟨[d]⟩ ∧ Tells source d code span front rest := by
  rcases parse_eq_or source with ⟨t, -, hok⟩ | ⟨t, rest, hread, hrest, herror⟩ | ⟨m, hm, herror⟩
  · cases hok.symm.trans h
  · obtain rfl := Except.error.inj (herror.symm.trans h)
    obtain ⟨d, span, front, hreport, htells⟩ := exists_tells_of_trailing hread hrest herror
    exact ⟨d, _, span, front, rest, hreport, htells⟩
  · obtain rfl := Except.error.inj (herror.symm.trans h)
    obtain ⟨d, span, front, hreport, htells⟩ := exists_tells_of_misreading hm herror
    exact ⟨d, _, span, front, _, hreport, htells⟩

/-- The placeholder is told, not the lists of arguments around it. Its label ends in front of the
character that is no item type, and which takes two bytes. -/
theorem placeholderInArguments_told :
    ∃ d front rest, parse "A<B<int, \x7bpage:é\x7d>>" = .error ⟨[d]⟩ ∧
      Tells "A<B<int, \x7bpage:é\x7d>>" d .unknownItemType ⟨9, 15, by decide⟩ front rest := by
  have hparse : parse "A<B<int, \x7bpage:é\x7d>>" = .error (Misreading.report
      ⟨.badItemType, "\x7bpage:é\x7d>>".toList, "é\x7d>>".toList⟩
      "A<B<int, \x7bpage:é\x7d>>".toList) := by decide +kernel
  obtain ⟨d, code, span, front, rest, hreport, htells⟩ := parse_tells_innermost _ _ hparse
  obtain rfl : _ = d := (List.cons.inj (Report.mk.inj hreport)).1
  obtain rfl : .unknownItemType = code := Option.some.inj htells.hasCode
  obtain rfl : (⟨9, 15, by decide⟩ : Span) = span := by
    refine Eq.trans ?_ (List.cons.inj htells.primary).1
    decide +kernel
  exact ⟨_, front, rest, hparse, htells⟩

end TypeRef

end ContentModels
