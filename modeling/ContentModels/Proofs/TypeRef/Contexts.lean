import ContentModels.Proofs.Parser
import ContentModels.Proofs.TypeRef.Failing
import ContentModels.Proofs.TypeRef.Parsing

/-!
# Type references in contexts

The grammar of type references by the parsers of `Parser`, with a context for each construct. Each
of them follows its reader in `TypeRef.Reader` (`Parser.Follows`): it gives the same values, and
where the reader tells a misreading, that is the first of the contexts in which the parser fails. So
no failure of a type lies in no context (`Parser.contexts_ne_nil_of_type`), and a text has the same
answer either way (`TypeRef.parse_eq_answer`).

What makes the two agree is that a failure is taken back only where nothing has been taken, or no
more than a mark of the root, blanks or a comma: there the readers have looked ahead.
-/

namespace ContentModels

namespace Parser

/-! ## The grammar -/

/-- An identifier. -/
def identifier : Parser String := do
  let c ← satisfying isNameStart
  let l ← run isNamePart
  return String.ofList (c :: l)

/-- An identifier behind a separator, in the context of the named type that begins at `opened`. -/
def identifierBehind (separator : Char) (opened : List Char) : Parser String := do
  exactly [separator]
  within ⟨.noIdentifier, opened⟩ (cut identifier)

/-- The name of an item type behind a colon, in the context of the placeholder that begins at
`opened`. -/
def itemTypeBehind (opened : List Char) : Parser ItemType := do
  exactly [':']
  within ⟨.badItemType, opened⟩ (cut (mapWhere ItemType.ofName? identifier))

/-- A placeholder. -/
def placeholder : Parser TypeRef := do
  let opened ← remaining
  exactly ['{']
  let name ← within ⟨.noAlias, opened⟩ (cut (run₁ isNamePart))
  let kind ← optional (itemTypeBehind opened)
  within ⟨.openPlaceholder, opened⟩ (cut (exactly ['}']))
  return .model ⟨String.ofList name, kind⟩

/-- An argument, with the blanks around it. -/
def argument (type : Parser TypeRef) : Parser TypeRef := do
  let _ ← run isBlank
  let t ← type
  let _ ← run isBlank
  return t

/-- An argument behind a comma. -/
def argumentBehind (type : Parser TypeRef) : Parser TypeRef := do
  exactly [',']
  argument type

/-- Generic arguments, with what ends their list. -/
def arguments (type : Parser TypeRef) : Parser (List TypeRef) := do
  let args ← separated (argument type) (exactly [','])
  exactly ['>']
  return args

/-- A list of generic arguments. -/
def argumentList (type : Parser TypeRef) : Parser (List TypeRef) := do
  let opened ← remaining
  exactly ['<']
  -- What fails in an argument lies in the contexts of that argument first.
  within ⟨.openArguments, opened⟩ (cut (arguments type))

/-- A named type. -/
def namedType (type : Parser TypeRef) : Parser TypeRef := do
  let opened ← remaining
  let root ← optional (exactly TypeRef.rootMark)
  let first ← identifier
  let dotted ← repeated (identifierBehind '.' opened)
  let nested ← repeated (identifierBehind '+' opened)
  let args ← optional (argumentList type)
  return TypeRef.Head.type ⟨root.isSome, first, dotted, nested⟩ (args.getD [])

/-- A rank. -/
def rank : Parser Unit := do
  let opened ← remaining
  exactly ['[']
  within ⟨.openRank, opened⟩ <| cut do
    let _ ← run isBlank
    exactly [']']

/-- The ranks behind an element type. -/
def ranks (t : TypeRef) : Parser TypeRef := do
  let found ← repeated rank
  return found.foldl (fun t _ => .array t) t

/-- A type without ranks. -/
def base (type : Parser TypeRef) : Parser TypeRef := do
  let opened ← remaining
  either placeholder (within ⟨.noTypeName, opened⟩ (namedType type))

/-- A type, whose arguments the given parser takes. -/
def typeOf (type : Parser TypeRef) : Parser TypeRef := do
  let t ← base type
  ranks t

/-- A type. -/
def type : Parser TypeRef := fun s =>
  -- An argument is shorter than its type, so that the failure here is never met.
  typeOf (fun s' => if s'.length < s.length then type s' else .failure true [] s') s
termination_by s => s.length

open TypeRef

/-- A parser comes to what a reader gives or tells, finally or not. -/
structure Follows {α : Type} {p : List Char → Prop} (o : Outcome α) (isFinal : Bool)
    (x : Except Misreading (α × Subtype p)) : Prop where
  /-- It gives the value and leaves the rest that the reader does. -/
  value : ∀ {a rest}, Yields x a rest → o = .value a rest
  /-- It fails where the reader stood, and its first context is the construct at fault. -/
  failure : ∀ {m}, x = .error m →
    ∃ outer, o = .failure isFinal (⟨m.mistake, m.opened⟩ :: outer) m.stopped

section Follows

variable {α : Type} {p q : List Char → Prop} {o : Outcome α} {isFinal : Bool}
  {x : Except Misreading (α × Subtype p)} {y : Except Misreading (α × Subtype q)}

/-- A parser follows a reader that goes on as the one that it follows. -/
theorem Follows.of_goesOn (h : Follows o isFinal y) (hgoes : GoesOn x y) : Follows o isFinal x :=
  ⟨fun hx => h.value (hgoes.symm.value hx), fun hx => h.failure (hgoes.symm.failure hx)⟩

/-- A parser follows a reader where both give a value. -/
theorem follows_of_value {a : α} {rest : List Char} (hx : Yields x a rest)
    (ho : o = .value a rest) : Follows o isFinal x := by
  obtain ⟨r, rfl, rfl⟩ := hx
  refine ⟨fun hx => ?_, nofun⟩
  obtain ⟨rfl, rfl⟩ := yields_ok_iff.1 hx
  exact ho

/-- A parser follows a reader where both fail. -/
theorem follows_of_error {m : Misreading} {outer : List Context} (hx : x = .error m)
    (ho : o = .failure isFinal (⟨m.mistake, m.opened⟩ :: outer) m.stopped) :
    Follows o isFinal x := by
  subst hx
  exact ⟨fun hx => absurd hx not_yields_error, fun hx => Except.error.inj hx ▸ ⟨outer, ho⟩⟩

end Follows

/-! ## Names -/

/-- An identifier is taken as far as it goes. -/
theorem identifier_of_isIdentifier {name : String} {rest : List Char} (hname : IsIdentifier name)
    (hrest : ∀ c ∈ rest.head?, isNamePart c = false) :
    identifier (name.toList ++ rest) = .value name rest := by
  unfold IsIdentifier at hname
  cases hl : name.toList with
  | nil =>
    rw [hl] at hname
    cases hname
  | cons c l =>
    rw [hl, isIdentifier, Bool.and_eq_true, List.all_eq_true] at hname
    obtain ⟨htake, hdrop⟩ := takeWhile_dropWhile_append hname.2 hrest
    have hchar : satisfying isNameStart (c :: (l ++ rest)) = .value c (l ++ rest) := by
      rw [satisfying, if_pos hname.1]
    have hrun : run isNamePart (l ++ rest) = .value l rest := by
      rw [run, htake, hdrop]
    rw [List.cons_append, identifier, bind_of_value hchar, bind_of_value hrun, ← hl,
      String.ofList_toList]
    rfl

/-- No identifier is taken where none starts. -/
theorem identifier_of_not_startsName {s : List Char} (h : startsName s = false) :
    identifier s = .failure false [] s := by
  refine bind_of_failure ?_
  cases s with
  | nil => rfl
  | cons c s => exact if_neg (Bool.eq_false_iff.1 h)

/-- An identifier behind a separator is taken. -/
theorem identifierBehind_of_isIdentifier {separator : Char} {opened rest : List Char}
    {name : String} (hname : IsIdentifier name) (hrest : ∀ c ∈ rest.head?, isNamePart c = false) :
    identifierBehind separator opened (separator :: (name.toList ++ rest)) = .value name rest := by
  rw [identifierBehind, bind_of_value (exactly_cons _ _)]
  exact within_of_value (cut_of_value (identifier_of_isIdentifier hname hrest))

/-- Identifiers behind separators fail where the reader of names does. -/
theorem repeated_identifierBehind_of_error {separator : Char} {opened s : List Char}
    {m : Misreading} (h : readNames separator opened s = .error m) :
    repeated (identifierBehind separator opened) s =
      .failure true [⟨m.mistake, m.opened⟩] m.stopped := by
  obtain ⟨s', hs, ⟨hnext, rfl⟩ | ⟨name, after, hident, rfl, hstop, hafter⟩⟩ :=
    readNames_eq_error_iff.1 h
  · refine repeated_of_final ?_
    rw [hs, identifierBehind, bind_of_value (exactly_cons _ _)]
    exact within_of_failure (cut_of_failure (identifier_of_not_startsName hnext))
  · have hlt : after.length < s.length := by
      rw [hs, List.length_cons, List.length_append]
      omega
    have hone : identifierBehind separator opened s = .value name after :=
      hs ▸ identifierBehind_of_isIdentifier hident hstop
    rw [repeated_of_value hone hlt]
    exact bind_of_failure (repeated_identifierBehind_of_error hafter)
termination_by s.length
decreasing_by exact hlt

/-- Identifiers, each behind the separator, are taken as the reader of names does. -/
theorem repeated_identifierBehind_follows (separator : Char) (opened s : List Char) :
    Follows (repeated (identifierBehind separator opened) s) true
      (readNames separator opened s) where
  value {names rest} h := by
    induction names generalizing s with
    | nil =>
      rcases yields_readNames_iff.1 h with ⟨-, rfl, hnext⟩ | ⟨_, _, _, hnames, -⟩
      · exact repeated_of_failure (bind_of_failure (exactly_of_notMem hnext))
      · cases hnames
    | cons n names ih =>
      rcases yields_readNames_iff.1 h with ⟨hnames, -⟩ |
        ⟨_, _, after, hnames, hident, rfl, hstop, hafter⟩
      · cases hnames
      · obtain ⟨rfl, rfl⟩ := List.cons.inj hnames
        rw [repeated_of_value (identifierBehind_of_isIdentifier hident hstop)
          (by rw [List.length_cons, List.length_append]; omega), bind_of_value (ih after hafter)]
        rfl
  failure h := ⟨[], repeated_identifierBehind_of_error h⟩

/-- An identifier is taken as the reader of names does. -/
theorem identifier_of_readName? {s : List Char} {name : String} {r : Shorter s}
    (h : readName? s = some (name, r)) : identifier s = .value name r.val := by
  obtain ⟨hident, hs, hstop⟩ := exists_readName?_iff.1 ⟨r, h, rfl⟩
  have hident := identifier_of_isIdentifier hident hstop
  rwa [← hs] at hident

/-! ## Placeholders -/

/-- No placeholder is taken where no brace stands. -/
theorem placeholder_of_notMem {s : List Char} (h : '{' ∉ s.head?) :
    placeholder s = .failure false [] s := by
  rw [placeholder, remaining_bind]
  exact bind_of_failure (exactly_of_notMem h)

/-- An alias is taken as far as it goes. -/
theorem run₁_of_isAlias {aliasName : String} {rest : List Char} (h : IsAlias aliasName)
    (hrest : ∀ c ∈ rest.head?, isNamePart c = false) :
    run₁ isNamePart (aliasName.toList ++ rest) = .value aliasName.toList rest := by
  obtain ⟨htake, hdrop⟩ := takeWhile_dropWhile_append h.2 hrest
  rw [run₁, if_neg (by simpa [htake] using h.1), run, htake, hdrop]

/-- No item type is taken where no colon stands. -/
theorem itemTypeBehind_of_notMem {opened s : List Char} (h : ':' ∉ s.head?) :
    itemTypeBehind opened s = .failure false [] s :=
  bind_of_failure (exactly_of_notMem h)

/-- An item type is taken that stands behind a colon. -/
theorem itemTypeBehind_of_eq {opened rest : List Char} {word : String} {kind : ItemType}
    (hword : IsIdentifier word) (hrest : ∀ c ∈ rest.head?, isNamePart c = false)
    (hkind : word.toList.map Char.toLower = kind.name.toList.map Char.toLower) :
    itemTypeBehind opened (':' :: (word.toList ++ rest)) = .value kind rest := by
  rw [itemTypeBehind, bind_of_value (exactly_cons _ _)]
  refine within_of_value (cut_of_value ?_)
  rw [mapWhere, identifier_of_isIdentifier hword hrest]
  dsimp only
  rw [ItemType.ofName?_eq_some_iff.2 hkind]

/-- Where no item type stands behind a colon, that is final. -/
theorem itemTypeBehind_of_not_startsItemType {opened s : List Char}
    (h : ∀ rest, ¬ StartsItemType s rest) :
    itemTypeBehind opened (':' :: s) = .failure true [⟨.badItemType, opened⟩] s := by
  have hitem : mapWhere ItemType.ofName? identifier s = .failure false [] s := by
    cases hname : readName? s with
    | none => rw [mapWhere, identifier_of_not_startsName (readName?_eq_none_iff.1 hname)]
    | some read =>
      obtain ⟨word, r⟩ := read
      rw [mapWhere, identifier_of_readName? hname]
      dsimp only
      cases hkind : ItemType.ofName? word with
      | none => rfl
      | some kind => exact absurd (startsItemType_iff.2 ⟨word, kind, r, hname, hkind, rfl⟩) (h _)
  rw [itemTypeBehind, bind_of_value (exactly_cons _ _)]
  exact within_of_failure (cut_of_failure hitem)

/-- What stands behind the alias of a placeholder. -/
theorem placeholder_of_isAlias {aliasName : String} {rest : List Char} (h : IsAlias aliasName)
    (hrest : ∀ c ∈ rest.head?, isNamePart c = false) :
    placeholder ('{' :: (aliasName.toList ++ rest)) = (do
      let kind ← optional (itemTypeBehind ('{' :: (aliasName.toList ++ rest)))
      within ⟨.openPlaceholder, '{' :: (aliasName.toList ++ rest)⟩ (cut (exactly ['}']))
      return TypeRef.model ⟨aliasName, kind⟩) rest := by
  rw [placeholder, remaining_bind, bind_of_value (exactly_cons _ _),
    bind_of_value (within_of_value (cut_of_value (run₁_of_isAlias h hrest))), String.ofList_toList]

/-- A placeholder is taken as its reader does. -/
theorem placeholder_follows (s : List Char) :
    Follows (placeholder ('{' :: s)) true (readPlaceholder ('{' :: s) s) where
  value {t rest} h := by
    have hbrace : ∀ context, within context (cut (exactly ['}'])) ('}' :: rest) = .value () rest :=
      fun context => within_of_value (cut_of_value (exactly_cons _ _))
    have hend : ∀ c ∈ ('}' :: rest).head?, isNamePart c = false := by simp; decide
    obtain ⟨aliasName, halias, ⟨rfl, rfl⟩ | ⟨word, kind, hident, hkind, rfl, rfl⟩⟩ :=
      yields_readPlaceholder_iff.1 h
    · rw [placeholder_of_isAlias halias hend,
        bind_of_value (optional_of_failure (itemTypeBehind_of_notMem (by simp))),
        bind_of_value (hbrace _)]
      rfl
    · have hcolon : ∀ c ∈ (':' :: (word.toList ++ '}' :: rest)).head?, isNamePart c = false := by
        simp; decide
      rw [placeholder_of_isAlias halias hcolon,
        bind_of_value (optional_of_value (itemTypeBehind_of_eq hident hend hkind)),
        bind_of_value (hbrace _)]
      rfl
  failure {m} h := by
    have hbrace : ∀ {context rest}, '}' ∉ rest.head? →
        within context (cut (exactly ['}'])) rest = .failure true [context] rest :=
      fun h => within_of_failure (cut_of_failure (exactly_of_notMem h))
    rcases readPlaceholder_eq_error_iff.1 h with ⟨hnext, rfl⟩ |
      ⟨aliasName, after, halias, rfl, hstop, ⟨hcolon, hend, rfl⟩ |
        ⟨rest, rfl, ⟨hitem, rfl⟩ | ⟨rest', ⟨word, kind, hident, rfl, hstop', hkind⟩, hend, rfl⟩⟩⟩
    · have hnone : run₁ isNamePart s = .failure false [] s := by
        cases s with
        | nil => rfl
        | cons c s => simp [run₁, hnext c rfl]
      refine ⟨[], ?_⟩
      rw [placeholder, remaining_bind, bind_of_value (exactly_cons _ _)]
      exact bind_of_failure (within_of_failure (cut_of_failure hnone))
    · refine ⟨[], ?_⟩
      rw [placeholder_of_isAlias halias hstop,
        bind_of_value (optional_of_failure (itemTypeBehind_of_notMem hcolon))]
      exact bind_of_failure (hbrace hend)
    · refine ⟨[], ?_⟩
      rw [placeholder_of_isAlias halias hstop]
      exact bind_of_failure (optional_of_final (itemTypeBehind_of_not_startsItemType hitem))
    · refine ⟨[], ?_⟩
      rw [placeholder_of_isAlias halias hstop,
        bind_of_value (optional_of_value (itemTypeBehind_of_eq hident hstop' hkind))]
      exact bind_of_failure (hbrace hend)

/-! ## Ranks -/

/-- Blanks are taken up to what follows them. -/
theorem run_isBlank {blanks rest : List Char} (hblanks : IsBlankRun blanks)
    (hrest : ∀ c ∈ rest.head?, isBlank c = false) :
    run isBlank (blanks ++ rest) = .value blanks rest := by
  obtain ⟨htake, hdrop⟩ := takeWhile_dropWhile_append hblanks hrest
  rw [run, htake, hdrop]

/-- No rank is taken where no bracket stands. -/
theorem rank_of_notMem {s : List Char} (h : '[' ∉ s.head?) : rank s = .failure false [] s := by
  rw [rank, remaining_bind]
  exact bind_of_failure (exactly_of_notMem h)

/-- A rank is taken where it ends. -/
theorem rank_of_eq {blanks rest : List Char} (hblanks : IsBlankRun blanks) :
    rank ('[' :: (blanks ++ ']' :: rest)) = .value () rest := by
  rw [rank, remaining_bind, bind_of_value (exactly_cons _ _)]
  refine within_of_value (cut_of_value ?_)
  rw [bind_of_value (run_isBlank hblanks (by simp; decide)), exactly_cons]

/-- Where a rank does not end, that is final. -/
theorem rank_of_open {blanks rest : List Char} (hblanks : IsBlankRun blanks)
    (hrest : ∀ c ∈ rest.head?, isBlank c = false ∧ c ≠ ']') :
    rank ('[' :: (blanks ++ rest)) =
      .failure true [⟨.openRank, '[' :: (blanks ++ rest)⟩] rest := by
  have hopen : exactly [']'] rest = .failure false [] rest :=
    exactly_of_notMem fun hc => (hrest _ hc).2 rfl
  have hinner : (do let _ ← run isBlank; exactly [']'] : Parser Unit) (blanks ++ rest) =
      .failure false [] rest := by
    rw [bind_of_value (run_isBlank hblanks fun c hc => (hrest c hc).1), hopen]
  rw [rank, remaining_bind, bind_of_value (exactly_cons _ _)]
  exact within_of_failure (cut_of_failure hinner)

/-- Behind a rank, the ranks are those behind the array. -/
theorem ranks_of_rank {t : TypeRef} {s rest : List Char} (h : rank s = .value () rest)
    (hlt : rest.length < s.length) : ranks t s = ranks (.array t) rest := by
  rw [ranks, bind_congr_at (repeated_of_value h hlt), ranks]
  simp only [bind_assoc, pure_bind, List.foldl_cons]

/-- Ranks are taken as the reader of ranks does. -/
theorem ranks_follows (t : TypeRef) (s : List Char) :
    Follows (ranks t s) true (readRanks t s) := by
  by_cases hnext : '[' ∈ s.head?
  · obtain ⟨s', hs⟩ := List.head?_eq_some_iff.1 hnext
    obtain ⟨blanks, hblanks, hs'⟩ := exists_blanks s'
    by_cases hclose : ']' ∈ (skipBlanks s').val.head?
    · obtain ⟨rest, hrest⟩ := List.head?_eq_some_iff.1 hclose
      rw [hrest] at hs'
      have hlt : rest.length < s.length := by
        rw [hs, hs', List.length_cons, List.length_append, List.length_cons]
        omega
      have hrank : rank s = .value () rest := hs ▸ hs' ▸ rank_of_eq hblanks
      rw [ranks_of_rank hrank hlt, hs, hs']
      exact (ranks_follows (.array t) rest).of_goesOn (goesOn_rank hblanks)
    · have hopen : ∀ c ∈ (skipBlanks s').val.head?, isBlank c = false ∧ c ≠ ']' := fun c hc =>
        ⟨isBlank_head?_skipBlanks s' c hc, by rintro rfl; exact hclose hc⟩
      have hrank := rank_of_open hblanks hopen
      rw [← hs', ← hs] at hrank
      exact follows_of_error
        (readRanks_eq_error_iff.2 ⟨blanks, _, hblanks, by rw [← hs', hs], .inl ⟨hopen, rfl⟩⟩)
        (bind_of_failure (repeated_of_final hrank))
  · exact follows_of_value (yields_readRanks_iff.2 (.inl ⟨rfl, rfl, hnext⟩))
      (bind_of_value (repeated_of_failure (rank_of_notMem hnext)))
termination_by s.length
decreasing_by exact hlt

/-! ## Arguments -/

section Arguments

variable {type : Parser TypeRef}

/-- The arguments behind the first one, with what ends their list. -/
def moreArguments (type : Parser TypeRef) : Parser (List TypeRef) := do
  let args ← repeated (argumentBehind type)
  exactly ['>']
  return args

/-- An argument stands between blanks. -/
theorem argument_of_value {s rest : List Char} {t : TypeRef}
    (h : type (skipBlanks s).val = .value t rest) :
    argument type s = .value t (skipBlanks rest).val := by
  have hrun : run isBlank s = .value (s.takeWhile isBlank) (skipBlanks s).val := rfl
  have hrun' : run isBlank rest = .value (rest.takeWhile isBlank) (skipBlanks rest).val := rfl
  rw [argument, bind_of_value hrun, bind_of_value h, bind_of_value hrun']
  rfl

/-- An argument fails as its type does. -/
theorem argument_of_failure {s rest : List Char} {isFinal : Bool} {contexts : List Context}
    (h : type (skipBlanks s).val = .failure isFinal contexts rest) :
    argument type s = .failure isFinal contexts rest := by
  have hrun : run isBlank s = .value (s.takeWhile isBlank) (skipBlanks s).val := rfl
  rw [argument, bind_of_value hrun]
  exact bind_of_failure h

/-- Behind a comma, an argument is as it is elsewhere. -/
theorem argumentBehind_cons (s : List Char) :
    argumentBehind type (',' :: s) = argument type s :=
  bind_of_value (exactly_cons _ _)

/-- Behind the first argument stand the others. -/
theorem arguments_of_value {s rest : List Char} {t : TypeRef}
    (h : argument type s = .value t rest) :
    arguments type s = (do return t :: (← moreArguments type)) rest := by
  simp only [arguments, separated, moreArguments, bind_assoc, pure_bind]
  exact bind_of_value h

/-- Arguments fail as the first one does. -/
theorem arguments_of_failure {s rest : List Char} {isFinal : Bool} {contexts : List Context}
    (h : argument type s = .failure isFinal contexts rest) :
    arguments type s = .failure isFinal contexts rest :=
  bind_of_failure (bind_of_failure h)

/-- A bracket ends arguments. -/
theorem moreArguments_of_close (s : List Char) : moreArguments type ('>' :: s) = .value [] s := by
  have hnone : argumentBehind type ('>' :: s) = .failure false [] ('>' :: s) :=
    bind_of_failure (exactly_of_notMem (by simp))
  rw [moreArguments, bind_of_value (repeated_of_failure hnone), bind_of_value (exactly_cons _ _)]
  rfl

/-- Behind a comma with a type behind it, arguments go on. -/
theorem moreArguments_of_comma {s : List Char}
    (htype : Follows (type (skipBlanks s).val) true (readType (skipBlanks s).val)) :
    moreArguments type (',' :: s) = arguments type s := by
  cases hread : readType (skipBlanks s).val with
  | ok read =>
    obtain ⟨t, r⟩ := read
    have h := argument_of_value (htype.value ⟨r, hread, rfl⟩)
    have hlt : (skipBlanks r.val).val.length < (',' :: s).length := by
      have hle : (skipBlanks s).val.length ≤ s.length := (skipBlanks s).property
      have hle' : (skipBlanks r.val).val.length ≤ r.val.length := (skipBlanks r.val).property
      have hlt : r.val.length < (skipBlanks s).val.length := r.property
      rw [List.length_cons]
      omega
    have hmore := repeated_of_value ((argumentBehind_cons s).trans h) hlt
    rw [arguments_of_value h, moreArguments, bind_congr_at hmore]
    simp only [bind_assoc, pure_bind]
  | error m =>
    obtain ⟨outer, hfails⟩ := htype.failure hread
    have h := argument_of_failure hfails
    rw [arguments_of_failure h]
    exact bind_of_failure (repeated_of_final ((argumentBehind_cons s).trans h))

/-- Behind a comma without a type behind it, and elsewhere without a bracket, arguments do not
end. -/
theorem moreArguments_of_open {s : List Char} (hclose : '>' ∉ s.head?)
    (hcomma : ∀ s', s = ',' :: s' → startsType (skipBlanks s').val = false ∧
      Follows (type (skipBlanks s').val) false (readType (skipBlanks s').val)) :
    moreArguments type s = .failure false [] s := by
  obtain ⟨contexts, rest, hnone⟩ : ∃ contexts rest,
      argumentBehind type s = .failure false contexts rest := by
    by_cases hc : ',' ∈ s.head?
    · -- The comma is taken, and taken back with the failure of the type behind it.
      obtain ⟨s', rfl⟩ : ∃ s', s = ',' :: s' := List.head?_eq_some_iff.1 hc
      obtain ⟨hstarts, htype⟩ := hcomma s' rfl
      cases hread : readType (skipBlanks s').val with
      | ok read =>
        have hyes := startsType_of_yields ⟨read.2, hread, rfl⟩
        cases hstarts.symm.trans hyes
      | error m =>
        obtain ⟨outer, hfails⟩ := htype.failure hread
        exact ⟨_, _, (argumentBehind_cons s').trans (argument_of_failure hfails)⟩
    · exact ⟨_, _, bind_of_failure (exactly_of_notMem hc)⟩
  rw [moreArguments, bind_of_value (repeated_of_failure hnone)]
  exact bind_of_failure (exactly_of_notMem hclose)

/-- Arguments are taken as their reader does, where their types are. Where no type is to blame, the
failure is told of the arguments themselves. -/
theorem arguments_follows {opened s : List Char}
    (htype : ∀ s', s'.length ≤ s.length → Follows (type s') (startsType s') (readType s')) :
    (∀ args rest, Yields (readArguments opened s) args rest →
        arguments type s = .value args rest) ∧
      ∀ m, readArguments opened s = .error m → ∃ isFinal contexts outer,
        arguments type s = .failure isFinal contexts m.stopped ∧
          contexts ++ [⟨.openArguments, opened⟩] = ⟨m.mistake, m.opened⟩ :: outer := by
  have hle : (skipBlanks s).val.length ≤ s.length := (skipBlanks s).property
  have hfirst := htype _ hle
  -- Behind the first argument, a comma leads to a shorter text.
  have hshort : ∀ {t after s'}, Yields (readType (skipBlanks s).val) t after →
      (skipBlanks after).val = ',' :: s' → s'.length < s.length := by
    intro _ after _ hread hcomma
    have hlt : after.length < (skipBlanks s).val.length := hread.rest_bound
    have hle' : (skipBlanks after).val.length ≤ after.length := (skipBlanks after).property
    rw [hcomma, List.length_cons] at hle'
    omega
  have hnext : ∀ {s'}, s'.length < s.length → Follows (type (skipBlanks s').val)
      (startsType (skipBlanks s').val) (readType (skipBlanks s').val) :=
    fun {s'} hlt => htype _ (Nat.le_trans (skipBlanks s').property (Nat.le_of_lt hlt))
  constructor
  · intro args rest h
    obtain ⟨t, after, hread, hrest⟩ := yields_readArguments_iff.1 h
    rw [arguments_of_value (argument_of_value (hfirst.value hread))]
    rcases hrest with ⟨rfl, hclose⟩ | ⟨args', after', rfl, hcomma, hstarts, hargs⟩
    · rw [hclose, bind_of_value (moreArguments_of_close rest)]
      rfl
    · have hlt := hshort hread hcomma
      have hmore := (arguments_follows fun s' hs' =>
        htype s' (Nat.le_trans hs' (Nat.le_of_lt hlt))).1 _ _ hargs
      have hgoes := hnext hlt
      rw [hstarts] at hgoes
      rw [← moreArguments_of_comma hgoes] at hmore
      rw [hcomma, bind_of_value hmore]
      rfl
  · intro m h
    rcases readArguments_eq_error_iff.1 h with hread | ⟨t, after, hread, hclose, hrest⟩
    · obtain ⟨outer, hfails⟩ := hfirst.failure hread
      exact ⟨_, _, _, arguments_of_failure (argument_of_failure hfails), rfl⟩
    rw [arguments_of_value (argument_of_value (hfirst.value hread))]
    rcases hrest with ⟨hcomma, rfl⟩ | ⟨after', hcomma, hstarts, hargs⟩
    · refine ⟨false, [], [], bind_of_failure (moreArguments_of_open hclose fun s' hs' => ?_), rfl⟩
      have hstarts := hcomma s' hs'
      have hgoes := hnext (hshort hread hs')
      rw [hstarts] at hgoes
      exact ⟨hstarts, hgoes⟩
    · have hlt := hshort hread hcomma
      obtain ⟨isFinal, contexts, outer, hmore, hcontexts⟩ := (arguments_follows fun s' hs' =>
        htype s' (Nat.le_trans hs' (Nat.le_of_lt hlt))).2 _ hargs
      have hgoes := hnext hlt
      rw [hstarts] at hgoes
      rw [← moreArguments_of_comma hgoes] at hmore
      rw [hcomma]
      exact ⟨isFinal, contexts, outer, bind_of_failure hmore, hcontexts⟩
termination_by s.length
decreasing_by all_goals exact hlt

/-- A list of arguments is taken as their reader does. -/
theorem argumentList_follows {s : List Char}
    (htype : ∀ s', s'.length ≤ s.length → Follows (type s') (startsType s') (readType s')) :
    Follows (argumentList type ('<' :: s)) true (readArguments ('<' :: s) s) := by
  rw [argumentList, remaining_bind, bind_of_value (exactly_cons _ _)]
  constructor
  · intro args rest h
    exact within_of_value (cut_of_value ((arguments_follows htype).1 args rest h))
  · intro m h
    obtain ⟨isFinal, contexts, outer, hfails, hcontexts⟩ := (arguments_follows htype).2 m h
    rw [within_of_failure (cut_of_failure hfails), hcontexts]
    exact ⟨outer, rfl⟩

/-- No list of arguments is taken where none begins. -/
theorem argumentList_of_notMem {s : List Char} (h : '<' ∉ s.head?) :
    argumentList type s = .failure false [] s := by
  rw [argumentList, remaining_bind]
  exact bind_of_failure (exactly_of_notMem h)

/-! ## Types -/

/-- The mark of the root is taken, should it be there. -/
theorem optional_rootMark (s : List Char) :
    ∃ root, optional (exactly rootMark) s = .value root (unrooted s).val ∧
      root.isSome = isRooted s := by
  cases hrooted : isRooted s with
  | true =>
    have hsome : exactly rootMark s = .value () (s.drop rootMark.length) := if_pos hrooted
    refine ⟨some (), ?_, rfl⟩
    rw [optional_of_value hsome, unrooted, hrooted]
    rfl
  | false =>
    have hnone : exactly rootMark s = .failure false [] s := if_neg (Bool.eq_false_iff.1 hrooted)
    refine ⟨none, ?_, rfl⟩
    rw [optional_of_failure hnone, unrooted, hrooted]
    rfl

/-- The names of a type are taken as their reader does, and its arguments are what comes next. -/
theorem namedType_of_yields {s rest : List Char} {head : Head}
    (h : Yields (readHead s) head rest) :
    namedType type s =
      (do return head.type ((← optional (argumentList type)).getD [])) rest := by
  obtain ⟨hrooted, hfirst, after, after', hs, hstop, hdotted, hnested⟩ := yields_readHead_iff.1 h
  obtain ⟨root, hroot, hsome⟩ := optional_rootMark s
  rw [hs] at hroot
  rw [namedType, remaining_bind, bind_of_value hroot,
    bind_of_value (identifier_of_isIdentifier hfirst hstop),
    bind_of_value ((repeated_identifierBehind_follows '.' s after).value hdotted),
    bind_of_value ((repeated_identifierBehind_follows '+' s after').value hnested), hsome,
    ← hrooted]

/-- Where the reader of names fails, the parser does. -/
theorem namedType_of_error {s : List Char} {m : Misreading} (h : readHead s = .error m) :
    ∃ outer, within ⟨.noTypeName, s⟩ (namedType type) s =
      .failure (startsName (unrooted s).val) (⟨m.mistake, m.opened⟩ :: outer) m.stopped := by
  obtain ⟨root, hroot, -⟩ := optional_rootMark s
  rcases readHead_eq_error_iff.1 h with ⟨hnext, rfl⟩ | ⟨first, after, hfirst, hs, hstop, hrest⟩
  · have hfails : namedType type s = .failure false [] (unrooted s).val := by
      rw [namedType, remaining_bind, bind_of_value hroot]
      exact bind_of_failure (identifier_of_not_startsName hnext)
    rw [hnext]
    exact ⟨[], within_of_failure hfails⟩
  · obtain ⟨outer, hfails⟩ : ∃ outer, namedType type s =
        .failure true (⟨m.mistake, m.opened⟩ :: outer) m.stopped := by
      rw [hs] at hroot
      rw [namedType, remaining_bind, bind_of_value hroot,
        bind_of_value (identifier_of_isIdentifier hfirst hstop)]
      rcases hrest with hdotted | ⟨dotted, after', hdotted, hnested⟩
      · obtain ⟨outer, hfails⟩ := (repeated_identifierBehind_follows '.' s after).failure hdotted
        exact ⟨outer, bind_of_failure hfails⟩
      · obtain ⟨outer, hfails⟩ := (repeated_identifierBehind_follows '+' s after').failure hnested
        rw [bind_of_value ((repeated_identifierBehind_follows '.' s after).value hdotted)]
        exact ⟨outer, bind_of_failure hfails⟩
    rw [hs, startsName_append hfirst]
    exact ⟨_, within_of_failure hfails⟩

/-- Without a brace, the base of a type is a named one. -/
theorem base_of_notMem {s : List Char} (h : '{' ∉ s.head?) :
    base type s = within ⟨.noTypeName, s⟩ (namedType type) s := by
  rw [base, remaining_bind]
  exact either_of_failure (placeholder_of_notMem h)

/-- A placeholder is the base of a type. -/
theorem base_of_placeholder {s rest : List Char} {t : TypeRef}
    (h : Yields (readPlaceholder ('{' :: s) s) t rest) : base type ('{' :: s) = .value t rest := by
  rw [base, remaining_bind]
  exact either_of_value ((placeholder_follows s).value h)

/-- Names without arguments are the base of a type. -/
theorem base_of_names {s rest : List Char} {head : Head} (hbrace : '{' ∉ s.head?)
    (hhead : Yields (readHead s) head rest) (hlist : '<' ∉ rest.head?) :
    base type s = .value (head.type []) rest := by
  rw [base_of_notMem hbrace]
  refine within_of_value ?_
  rw [namedType_of_yields hhead,
    bind_of_value (optional_of_failure (argumentList_of_notMem hlist))]
  rfl

/-- Names with arguments are the base of a type. -/
theorem base_of_arguments {s after rest : List Char} {head : Head} {args : List TypeRef}
    (hbrace : '{' ∉ s.head?) (hhead : Yields (readHead s) head after)
    (hlist : argumentList type after = .value args rest) :
    base type s = .value (head.type args) rest := by
  rw [base_of_notMem hbrace]
  refine within_of_value ?_
  rw [namedType_of_yields hhead, bind_of_value (optional_of_value hlist)]
  rfl

/-- Behind the base of a type, its ranks are taken. -/
theorem typeOf_follows_of_base {s rest : List Char} {t : TypeRef}
    (hbase : base type s = .value t rest) (hgoes : GoesOn (readType s) (readRanks t rest)) :
    Follows (typeOf type s) true (readType s) := by
  rw [typeOf, bind_of_value hbase]
  exact (ranks_follows t rest).of_goesOn hgoes

/-- A type is taken as its reader does, where its arguments are. Its failure is final once it has
started. -/
theorem typeOf_follows {s : List Char}
    (htype : ∀ s', s'.length < s.length → Follows (type s') (startsType s') (readType s')) :
    Follows (typeOf type s) (startsType s) (readType s) := by
  by_cases hbrace : '{' ∈ s.head?
  · obtain ⟨s', rfl⟩ := List.head?_eq_some_iff.1 hbrace
    rw [startsType_brace]
    cases hread : readPlaceholder ('{' :: s') s' with
    | ok read =>
      have hmodel : Yields (readPlaceholder ('{' :: s') s') read.1 read.2.val := ⟨_, hread, rfl⟩
      exact typeOf_follows_of_base (base_of_placeholder hmodel) (goesOn_placeholder hmodel)
    | error m =>
      obtain ⟨outer, hfails⟩ := (placeholder_follows s').failure hread
      have hmodel : base type ('{' :: s') =
          .failure true (⟨m.mistake, m.opened⟩ :: outer) m.stopped := by
        rw [base, remaining_bind]
        exact either_of_final hfails
      exact follows_of_error (readType_eq_error_iff.2 (.inl ⟨s', rfl, .inl hread⟩))
        (bind_of_failure hmodel)
  rw [startsType_of_notMem hbrace]
  cases hread : readHead s with
  | error m =>
    obtain ⟨outer, hfails⟩ := @namedType_of_error type s m hread
    exact follows_of_error (readType_eq_error_iff.2 (.inr ⟨hbrace, .inl hread⟩))
      (bind_of_failure ((base_of_notMem hbrace).trans hfails))
  | ok read =>
    obtain ⟨head, ⟨rest, hlt⟩⟩ := read
    have hhead : Yields (readHead s) head rest := ⟨_, hread, rfl⟩
    obtain ⟨-, hfirst, after, -, hs, -⟩ := yields_readHead_iff.1 hhead
    rw [hs, startsName_append hfirst]
    by_cases hlist : '<' ∈ rest.head?
    · obtain ⟨after', rfl⟩ := List.head?_eq_some_iff.1 hlist
      have hfollows := argumentList_follows (s := after') fun s' hs' =>
        htype s' (Nat.lt_of_le_of_lt (Nat.le_succ_of_le hs') hlt)
      cases hargs : readArguments ('<' :: after') after' with
      | ok found =>
        have hyields : Yields (readArguments ('<' :: after') after') found.1 found.2.val :=
          ⟨_, hargs, rfl⟩
        exact typeOf_follows_of_base (base_of_arguments hbrace hhead (hfollows.value hyields))
          (goesOn_arguments hbrace hhead hyields)
      | error m =>
        obtain ⟨outer, hfails⟩ := hfollows.failure hargs
        have hnamed : namedType type s =
            .failure true (⟨m.mistake, m.opened⟩ :: outer) m.stopped := by
          rw [namedType_of_yields hhead]
          exact bind_of_failure (optional_of_final hfails)
        exact follows_of_error
          (readType_eq_error_iff.2
            (.inr ⟨hbrace, .inr ⟨head, _, hhead, .inr ⟨after', rfl, .inl hargs⟩⟩⟩))
          (bind_of_failure ((base_of_notMem hbrace).trans (within_of_failure hnamed)))
    · exact typeOf_follows_of_base (base_of_names hbrace hhead hlist)
        (goesOn_names hbrace hhead hlist)

end Arguments

/-- A type is taken as its reader does. -/
theorem type_follows (s : List Char) : Follows (type s) (startsType s) (readType s) := by
  rw [type]
  refine typeOf_follows fun s' hs' => ?_
  rw [if_pos hs']
  exact type_follows s'
termination_by s.length

/-- No failure of a type lies in no context. -/
theorem contexts_ne_nil_of_type {s rest : List Char} {isFinal : Bool} {contexts : List Context}
    (h : type s = .failure isFinal contexts rest) : contexts ≠ [] := by
  rintro rfl
  cases hread : readType s with
  | ok read => cases h.symm.trans ((type_follows s).value ⟨read.2, hread, rfl⟩)
  | error m =>
    obtain ⟨outer, hfails⟩ := (type_follows s).failure hread
    cases h.symm.trans hfails

end Parser

/-! ## Whole texts -/

/-- What would be told of a failure in no context, at the place where the parser stands. -/
def unknownFailure (place : Nat) : Diagnostic where
  severity := .error
  code := some .expectedTypeName
  message := "expected a type name"
  labels := [.primary (.between place (place + 1)) Code.expectedTypeName.description]
  help := none

/-- The answer to a text by what the parser of types comes to: a type that takes all of it, or a
report of what remains, or of the innermost context of a failure. -/
def Outcome.answer (source : List Char) : Outcome TypeRef → Except Report TypeRef
  | .value t [] => .ok t
  | .value _ (c :: rest) => .error (Report.trailing source (c :: rest))
  | .failure _ [] stopped => .error ⟨[unknownFailure (offset source stopped)]⟩
  | .failure _ (context :: _) stopped =>
    .error (Misreading.report ⟨context.mistake, context.opened, stopped⟩ source)

/-- The parser in contexts gives the same answers. -/
theorem TypeRef.parse_eq_answer (source : String) :
    parse source = (Parser.type source.toList).answer source.toList := by
  have hfollows := Parser.type_follows source.toList
  unfold parse
  dsimp only
  cases hread : readType source.toList with
  | error m =>
    obtain ⟨outer, hfails⟩ := hfollows.failure hread
    rw [hfails]
    rfl
  | ok read =>
    obtain ⟨t, rest, hlt⟩ := read
    rw [hfollows.value ⟨_, hread, rfl⟩]
    cases rest <;> rfl

end ContentModels
